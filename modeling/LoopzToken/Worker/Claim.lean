import Mathlib.Data.List.Sort
import Mathlib.Tactic.Common
import LoopzToken.Worker.Outbox

/-!
# LoopzToken.Worker.Claim

`claimBatch`: the hand-written `SELECT … FOR UPDATE SKIP LOCKED`, then the
Prisma `updateMany` and `findMany` of the same transaction.

The query names columns, so it is kept as syntax and run against a *model*: the
fields `schema.prisma` declares, each with the column it is stored in. That is
where the two halves of the transaction can disagree. `outboxEvent` is the model
as declared; `outboxEventMapped` is the one the query was written for, with
`next_run_at` and `created_at` mapped.

* On `outboxEvent` PostgreSQL rejects the query whatever the table holds.
* On `outboxEventMapped` the claim is proved to do what it is for
  (`claimBatch_mapped_agrees`). The rest of the development reads the query so.
-/

namespace LoopzToken.Worker

/-! ### Columns -/

/-- The value of a column, as PostgreSQL compares it. -/
inductive SqlValue
  | null
  | text (s : String)
  | integer (n : ℕ)
  | timestamp (t : DateTime)
  | json (v : Lib.Json)

/-- `=`; a comparison with `NULL` or across types is never true. -/
def SqlValue.eq : SqlValue → SqlValue → Bool
  | .text a, .text b => a == b
  | .integer a, .integer b => a == b
  | .timestamp a, .timestamp b => a == b
  | _, _ => false

/-- `<=`, on the types this query orders. -/
def SqlValue.le : SqlValue → SqlValue → Bool
  | .integer a, .integer b => a ≤ b
  | .timestamp a, .timestamp b => a ≤ b
  | _, _ => false

/-- The label PostgreSQL stores for an enum value. -/
def OutboxStatus.label : OutboxStatus → String
  | .pending => "PENDING"
  | .processing => "PROCESSING"
  | .done => "DONE"
  | .failed => "FAILED"

/-- A nullable column. -/
def SqlValue.ofOption {α : Type} (f : α → SqlValue) : Option α → SqlValue
  | none => .null
  | some a => f a

/-- One field of a Prisma model, with its `@map` if it has one. -/
structure PrismaField where
  name : String
  map : Option String := none
  value : OutboxEvent → SqlValue

/-- Prisma names a column after its field unless the field has `@map`. -/
def PrismaField.column (f : PrismaField) : String := f.map.getD f.name

/-- A Prisma model: its `@@map` table and its fields. -/
structure PrismaModel where
  table : String
  fields : List PrismaField

/-- The field stored in a column. -/
def PrismaModel.column? (M : PrismaModel) (c : String) : Option PrismaField :=
  M.fields.find? fun f => f.column = c

/-- `model OutboxEvent` as `schema.prisma` declares it: no field has `@map`. -/
def outboxEvent : PrismaModel where
  table := "outbox_events"
  fields := [
    { name := "id", value := fun r => .text r.id },
    { name := "eventType", value := fun r => .text r.eventType },
    { name := "payload", value := fun r => .json r.payload },
    { name := "status", value := fun r => .text r.status.label },
    { name := "attempts", value := fun r => .integer r.attempts },
    { name := "nextRunAt", value := fun r => .timestamp r.nextRunAt },
    { name := "lastError", value := fun r => .ofOption .text r.lastError },
    { name := "createdAt", value := fun r => .timestamp r.createdAt },
    { name := "doneAt", value := fun r => .ofOption .timestamp r.doneAt }]

/-- The model the claim query reads: `nextRunAt` and `createdAt` under the
names the query gives them. -/
def outboxEventMapped : PrismaModel where
  table := outboxEvent.table
  fields := outboxEvent.fields.map fun f =>
    if f.name = "nextRunAt" then { f with map := some "next_run_at" }
    else if f.name = "createdAt" then { f with map := some "created_at" }
    else f

/-! ### The claim query -/

inductive SqlExpr
  | column (name : String)
  | literal (text : String)
  | now
  deriving DecidableEq, Repr

inductive SqlCondition
  | eq (a b : SqlExpr)
  | le (a b : SqlExpr)
  | and (p q : SqlCondition)
  deriving DecidableEq, Repr

/-- `SELECT id FROM table WHERE condition ORDER BY orderBy LIMIT limit
FOR UPDATE SKIP LOCKED`. -/
structure SelectForUpdate where
  column : String
  table : String
  condition : SqlCondition
  orderBy : String
  limit : ℕ
  deriving DecidableEq, Repr

/-- What PostgreSQL answers to a query it cannot analyse. -/
inductive DbError
  | undefinedTable (name : String)
  | undefinedColumn (name : String)
  deriving DecidableEq, Repr

def SqlExpr.columns : SqlExpr → List String
  | .column c => [c]
  | .literal _ => []
  | .now => []

def SqlCondition.columns : SqlCondition → List String
  | .eq a b => a.columns ++ b.columns
  | .le a b => a.columns ++ b.columns
  | .and p q => p.columns ++ q.columns

/-- The columns a query names, in the order PostgreSQL resolves them. -/
def SelectForUpdate.columns (q : SelectForUpdate) : List String :=
  q.column :: (q.condition.columns ++ [q.orderBy])

/-- Name resolution. It looks at the query and the schema, never at a row. -/
def SelectForUpdate.analyze (q : SelectForUpdate) (M : PrismaModel) : Except DbError Unit :=
  if q.table ≠ M.table then .error (.undefinedTable q.table)
  else match q.columns.find? fun c => (M.column? c).isNone with
    | some c => .error (.undefinedColumn c)
    | none => .ok ()

/-- The value of a column in a row. -/
def PrismaModel.value (M : PrismaModel) (r : OutboxEvent) (c : String) : SqlValue :=
  match M.column? c with
  | some f => f.value r
  | none => .null

def SqlExpr.eval (M : PrismaModel) (now : DateTime) (r : OutboxEvent) : SqlExpr → SqlValue
  | .column c => M.value r c
  | .literal s => .text s
  | .now => .timestamp now

def SqlCondition.eval (M : PrismaModel) (now : DateTime) (r : OutboxEvent) :
    SqlCondition → Bool
  | .eq a b => (a.eval M now r).eq (b.eval M now r)
  | .le a b => (a.eval M now r).le (b.eval M now r)
  | .and p q => p.eval M now r && q.eval M now r

/-- Run the query over the rows it visits (`order`): filter, sort, skip what
another open transaction has `locked`, stop at the limit. The ids returned are
the rows it locks. -/
def SelectForUpdate.run (q : SelectForUpdate) (M : PrismaModel) (order : List String)
    (now : DateTime) (locked : List String) (T : Table) : Except DbError (List String) :=
  match q.analyze M with
  | .error e => .error e
  | .ok () =>
    let hits := (T.scan order).filter fun r => q.condition.eval M now r
    let sorted := hits.insertionSort fun a b => (M.value a q.orderBy).le (M.value b q.orderBy)
    -- skipped rows do not count towards the limit
    let free := sorted.filter fun r => r.id ∉ locked
    .ok ((free.take q.limit).map (·.id))

/-- `BATCH_SIZE`. -/
def batchSize : ℕ := 20

/-- The raw SQL of `claimBatch`. -/
def claimQuery : SelectForUpdate where
  column := "id"
  table := "outbox_events"
  condition := .and (.eq (.column "status") (.literal "PENDING"))
    (.le (.column "next_run_at") .now)
  orderBy := "created_at"
  limit := batchSize

/-- `data: { status: OutboxStatus.PROCESSING }`. -/
def claimUpdate : OutboxUpdate := { status := some .processing }

/-- The rest of the transaction, once the query has locked `ids`. -/
def claimRows (ids order : List String) (T : Table) : Table × List OutboxEvent :=
  if ids.length = 0 then (T, [])
  else
    let T' := T.updateMany ids claimUpdate
    (T', T'.findMany ids order)

/-- `claimBatch`. `order₁` and `order₂` are the orders the two reads visit the
table in, `locked` the rows other open transactions hold. -/
def claimBatch (M : PrismaModel) (order₁ order₂ : List String) (now : DateTime)
    (locked : List String) (T : Table) : Except DbError (Table × List OutboxEvent) :=
  match claimQuery.run M order₁ now locked T with
  | .error e => .error e
  | .ok ids => .ok (claimRows ids order₂ T)

/-! ### What the claim is for -/

/-- A row the worker may take: pending, and its time has come. -/
def OutboxEvent.Due (now : DateTime) (r : OutboxEvent) : Prop :=
  r.status = .pending ∧ r.nextRunAt ≤ now

instance (now : DateTime) (r : OutboxEvent) : Decidable (r.Due now) :=
  inferInstanceAs (Decidable (_ ∧ _))

/-- A claimed row: processing, and otherwise as it was. -/
def OutboxEvent.claimed (r : OutboxEvent) : OutboxEvent := { r with status := .processing }

@[simp] theorem claimUpdate_apply (r : OutboxEvent) : claimUpdate.apply r = r.claimed := rfl
@[simp] theorem OutboxEvent.claimed_id (r : OutboxEvent) : r.claimed.id = r.id := rfl
@[simp] theorem OutboxEvent.claimed_status (r : OutboxEvent) :
    r.claimed.status = .processing := rfl
@[simp] theorem OutboxEvent.claimed_attempts (r : OutboxEvent) :
    r.claimed.attempts = r.attempts := rfl
@[simp] theorem OutboxEvent.claimed_doneAt (r : OutboxEvent) :
    r.claimed.doneAt = r.doneAt := rfl

/-- **The abstract claim.** From `T` at time `now`, `T'` and `events` are what
taking a batch must produce: as many due rows as fit, the oldest ones, all moved
to `PROCESSING`, all returned, and nothing else touched. -/
structure ClaimSpec (now : DateTime) (T T' : Table) (events : List OutboxEvent) : Prop where
  count : events.length = min (T.rows.filter fun r => r.Due now).length batchSize
  nodup : (events.map (·.id)).Nodup
  due : ∀ e ∈ events, ∃ r ∈ T.rows, r.Due now ∧ e = r.claimed
  oldest : ∀ r ∈ T.rows, r.Due now → r.id ∉ events.map (·.id) →
    ∀ e ∈ events, e.createdAt ≤ r.createdAt
  table : T'.rows = T.rows.map fun r => if r.id ∈ events.map (·.id) then r.claimed else r

/-- `claimBatch`, run against the model `M` with no row locked, does what a
claim must do, whatever order the database visits the rows in. -/
def ClaimAgrees (M : PrismaModel) (now : DateTime) (T : Table) : Prop :=
  ∀ order₁ order₂ : List String, order₁.Perm T.ids → order₂.Perm T.ids →
    ∃ T' events, claimBatch M order₁ order₂ now [] T = .ok (T', events) ∧
      ClaimSpec now T T' events

/-! ### The declared model -/

theorem claimQuery_analyze_declared :
    claimQuery.analyze outboxEvent = .error (.undefinedColumn "next_run_at") := by
  decide

/-- No table content and no time make the declared columns fit the query. -/
theorem claimBatch_declared (order₁ order₂ : List String) (now : DateTime)
    (locked : List String) (T : Table) :
    claimBatch outboxEvent order₁ order₂ now locked T =
      .error (.undefinedColumn "next_run_at") := by
  simp only [claimBatch, SelectForUpdate.run, claimQuery_analyze_declared]

/-- The claim query never agrees with the schema as it is declared. -/
theorem not_claimAgrees_declared (now : DateTime) (T : Table) :
    ¬ ClaimAgrees outboxEvent now T := by
  intro h
  obtain ⟨T', events, hc, -⟩ := h T.ids T.ids (List.Perm.refl _) (List.Perm.refl _)
  rw [claimBatch_declared] at hc
  cases hc

/-- A table with one row that is pending and due. -/
def oneDueTable : Table where
  rows := [{ id := "e1", eventType := "request.completed", payload := .null,
             status := .pending, attempts := 0, nextRunAt := 0, lastError := none,
             createdAt := 0, doneAt := none }]
  nodup := List.nodup_singleton _

/-- One due row, and the claim is an error instead of that row. -/
theorem claim_oneDueTable :
    claimBatch outboxEvent oneDueTable.ids oneDueTable.ids 0 [] oneDueTable =
        .error (.undefinedColumn "next_run_at") ∧
      ¬ ClaimAgrees outboxEvent 0 oneDueTable := by
  refine ⟨claimBatch_declared .., fun h => ?_⟩
  obtain ⟨T', events, hc, -⟩ := h _ _ (List.Perm.refl _) (List.Perm.refl _)
  rw [claimBatch_declared] at hc
  cases hc

/-! ### The mapped model -/

theorem claimQuery_analyze_mapped : claimQuery.analyze outboxEventMapped = .ok () := by
  decide

theorem outboxEventMapped_createdAt (r : OutboxEvent) :
    outboxEventMapped.value r claimQuery.orderBy = .timestamp r.createdAt := rfl

theorem OutboxStatus.label_eq_pending {s : OutboxStatus} :
    s.label = "PENDING" ↔ s = .pending := by
  cases s <;> decide

theorem claimQuery_condition (now : DateTime) (r : OutboxEvent) :
    claimQuery.condition.eval outboxEventMapped now r = decide (r.Due now) := by
  have heval : claimQuery.condition.eval outboxEventMapped now r =
      ((r.status.label == "PENDING") && decide (r.nextRunAt ≤ now)) := rfl
  rw [heval]
  by_cases hs : r.status = .pending <;>
    simp [OutboxEvent.Due, hs, beq_eq_decide, OutboxStatus.label_eq_pending]

/-- The due rows, oldest first among the rows visited. -/
def dueSorted (order : List String) (now : DateTime) (T : Table) : List OutboxEvent :=
  ((T.scan order).filter fun r => r.Due now).insertionSort fun a b => a.createdAt ≤ b.createdAt

theorem mem_dueSorted {order : List String} {now : DateTime} {T : Table} {r : OutboxEvent} :
    r ∈ dueSorted order now T ↔ r.id ∈ order ∧ T.find? r.id = some r ∧ r.Due now := by
  rw [dueSorted, (List.perm_insertionSort _ _).mem_iff, List.mem_filter, Table.mem_scan]
  simp [and_assoc]

theorem dueSorted_pairwise (order : List String) (now : DateTime) (T : Table) :
    (dueSorted order now T).Pairwise fun a b => a.createdAt ≤ b.createdAt := by
  have : Std.Total fun a b : OutboxEvent => a.createdAt ≤ b.createdAt :=
    ⟨fun a b => Int.le_total a.createdAt b.createdAt⟩
  have : IsTrans OutboxEvent fun a b => a.createdAt ≤ b.createdAt :=
    ⟨fun _ _ _ => Int.le_trans⟩
  exact List.pairwise_insertionSort _ _

theorem dueSorted_ids_nodup {order : List String} (now : DateTime) (T : Table)
    (h : order.Nodup) : ((dueSorted order now T).map (·.id)).Nodup := by
  rw [dueSorted, ((List.perm_insertionSort _ _).map _).nodup_iff]
  exact ((List.filter_sublist.map _).trans (T.scan_ids_sublist order)).nodup h

theorem claimQuery_run_mapped (order : List String) (now : DateTime) (locked : List String)
    (T : Table) :
    claimQuery.run outboxEventMapped order now locked T =
      .ok ((((dueSorted order now T).filter fun r => r.id ∉ locked).take batchSize).map
        (·.id)) := by
  have hsort : ∀ l : List OutboxEvent,
      (l.insertionSort fun a b => (outboxEventMapped.value a claimQuery.orderBy).le
        (outboxEventMapped.value b claimQuery.orderBy)) =
      l.insertionSort fun a b => a.createdAt ≤ b.createdAt := by
    intro l
    simp only [outboxEventMapped_createdAt, SqlValue.le, decide_eq_true_eq]
  simp only [SelectForUpdate.run, claimQuery_analyze_mapped, claimQuery_condition, hsort,
    dueSorted]
  rfl

/-- What the run lemmas use of the query: it locks distinct rows that are
pending, due and not locked by anybody else. -/
theorem claimQuery_locks {order ids locked : List String} {now : DateTime} {T : Table}
    (hord : order.Nodup)
    (h : claimQuery.run outboxEventMapped order now locked T = .ok ids) :
    ids.Nodup ∧ ∀ i ∈ ids, i ∉ locked ∧ ∃ r, T.find? i = some r ∧ r.Due now := by
  rw [claimQuery_run_mapped] at h
  obtain rfl := Except.ok.inj h
  constructor
  · have hsub : (((dueSorted order now T).filter fun r => r.id ∉ locked).take batchSize).Sublist
        (dueSorted order now T) := (List.take_sublist _ _).trans List.filter_sublist
    exact (hsub.map _).nodup (dueSorted_ids_nodup now T hord)
  · intro i hi
    obtain ⟨r, hr, rfl⟩ := List.mem_map.mp hi
    have hr' := List.mem_filter.mp (List.mem_of_mem_take hr)
    obtain ⟨-, hf, hdue⟩ := mem_dueSorted.mp hr'.1
    exact ⟨by simpa using hr'.2, r, hf, hdue⟩

/-! ### The claim under the mapped model meets its specification -/

theorem scan_perm_rows {T : Table} {order : List String} (h : order.Perm T.ids) :
    (T.scan order).Perm T.rows := by
  have hself : T.scan T.ids = T.rows := by
    rw [Table.scan, Table.ids, List.filterMap_map]
    conv_rhs => rw [← List.filterMap_some (l := T.rows)]
    exact List.filterMap_congr fun r hr => Table.find?_of_mem hr
  exact (h.filterMap T.find?).trans (by rw [← Table.scan, hself])

theorem dueSorted_perm {T : Table} {order : List String} (now : DateTime)
    (h : order.Perm T.ids) :
    (dueSorted order now T).Perm (T.rows.filter fun r => r.Due now) :=
  (List.perm_insertionSort _ _).trans ((scan_perm_rows h).filter _)

/-- Re-reading the claimed ids returns the claimed rows, in some order. -/
theorem findMany_claimed_perm {T : Table} {batch : List OutboxEvent} {order : List String}
    (hbatch : ∀ r ∈ batch, T.find? r.id = some r) (hnd : (batch.map (·.id)).Nodup)
    (hord : order.Perm T.ids) :
    ((T.updateMany (batch.map (·.id)) claimUpdate).findMany (batch.map (·.id)) order).Perm
      (batch.map OutboxEvent.claimed) := by
  have hids : order.Nodup := hord.nodup_iff.mpr T.nodup
  have hndc : (batch.map OutboxEvent.claimed).Nodup := by
    refine List.Nodup.of_map (·.id) ?_
    rwa [List.map_map]
  -- neither list repeats a row, so it is enough to compare members
  refine (List.perm_ext_iff_of_nodup (Table.findMany_ids_nodup hids).of_map hndc).mpr
    fun e => ?_
  rw [Table.mem_findMany, Table.find?_updateMany]
  constructor
  · intro h
    obtain ⟨hmem, -, hf⟩ := h
    obtain ⟨r, hr, hre⟩ := List.mem_map.mp hmem
    rw [if_pos hmem, ← hre, hbatch r hr, Option.map_some, Option.some.injEq,
      claimUpdate_apply] at hf
    exact List.mem_map.mpr ⟨r, hr, hf⟩
  · intro he
    obtain ⟨r, hr, rfl⟩ := List.mem_map.mp he
    have hmem : r.id ∈ batch.map (·.id) := List.mem_map_of_mem hr
    refine ⟨hmem, hord.mem_iff.mpr (Table.mem_ids_iff.mpr ⟨r, hbatch r hr⟩), ?_⟩
    rw [OutboxEvent.claimed_id, if_pos hmem, hbatch r hr, Option.map_some, claimUpdate_apply]

theorem claimRows_spec {now : DateTime} {T : Table} {batch rest : List OutboxEvent}
    {order : List String} (hord : order.Perm T.ids)
    (hdue : (batch ++ rest).Perm (T.rows.filter fun r => r.Due now))
    (hlen : batch.length = min (batch ++ rest).length batchSize)
    (hold : ∀ b ∈ batch, ∀ r ∈ rest, b.createdAt ≤ r.createdAt)
    (hnd : ((batch ++ rest).map (·.id)).Nodup) :
    ClaimSpec now T (claimRows (batch.map (·.id)) order T).1
      (claimRows (batch.map (·.id)) order T).2 := by
  have hmem : ∀ r ∈ batch ++ rest, r ∈ T.rows ∧ r.Due now := fun r hr => by
    simpa using hdue.mem_iff.mp hr
  have hfind : ∀ r ∈ batch, T.find? r.id = some r := fun r hr =>
    Table.find?_of_mem (hmem r (List.mem_append_left _ hr)).1
  have hndb : (batch.map (·.id)).Nodup :=
    ((List.sublist_append_left batch rest).map _).nodup hnd
  have hperm : (claimRows (batch.map (·.id)) order T).2.Perm (batch.map OutboxEvent.claimed) := by
    rw [claimRows]
    split
    · rename_i h0
      have hnil : batch = [] := by simpa using h0
      rw [hnil]
      exact List.Perm.refl _
    · exact findMany_claimed_perm hfind hndb hord
  have hidsperm : ((claimRows (batch.map (·.id)) order T).2.map (·.id)).Perm
      (batch.map (·.id)) := by
    simpa [List.map_map, Function.comp_def] using hperm.map (·.id)
  refine ⟨?_, hidsperm.nodup_iff.mpr hndb, ?_, ?_, ?_⟩
  · rw [hperm.length_eq, List.length_map, hlen, hdue.length_eq]
  · intro e he
    obtain ⟨r, hr, rfl⟩ := List.mem_map.mp (hperm.mem_iff.mp he)
    exact ⟨r, (hmem r (List.mem_append_left _ hr)).1, (hmem r (List.mem_append_left _ hr)).2, rfl⟩
  · intro r hr hrd hout e he
    obtain ⟨b, hb, rfl⟩ := List.mem_map.mp (hperm.mem_iff.mp he)
    have hin : r ∈ batch ++ rest := hdue.mem_iff.mpr (by simpa using ⟨hr, hrd⟩)
    -- a due row that was not returned comes after the batch
    rcases List.mem_append.mp hin with h | h
    · exact absurd (hidsperm.mem_iff.mpr (List.mem_map_of_mem h)) hout
    · exact hold b hb r h
  · simp only [hidsperm.mem_iff]
    rw [claimRows]
    split
    · rename_i h0
      simp [List.length_eq_zero_iff.mp h0]
    · simp only [Table.updateMany, Table.updateWhere, List.contains_iff_mem, claimUpdate_apply]

/-- **The claim does what it is for**, for every table content and time, once
the two columns carry the names the query gives them. -/
theorem claimBatch_mapped_agrees (now : DateTime) (T : Table) :
    ClaimAgrees outboxEventMapped now T := by
  intro order₁ order₂ h₁ h₂
  have hfree : ((dueSorted order₁ now T).filter fun r => r.id ∉ ([] : List String)) =
      dueSorted order₁ now T := by simp
  have hsplit := List.take_append_drop batchSize (dueSorted order₁ now T)
  refine ⟨_, _, by rw [claimBatch, claimQuery_run_mapped, hfree], ?_⟩
  have hpair := dueSorted_pairwise order₁ now T
  rw [← hsplit, List.pairwise_append] at hpair
  have hdue := dueSorted_perm now h₁
  rw [← hsplit] at hdue
  refine claimRows_spec h₂ hdue ?_ ?_ ?_
  · rw [hsplit, List.length_take]
    exact Nat.min_comm _ _
  · exact fun b hb r hr => hpair.2.2 b hb r hr
  · rw [hsplit]
    exact dueSorted_ids_nodup now T (h₁.nodup_iff.mpr T.nodup)

end LoopzToken.Worker
