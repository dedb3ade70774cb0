import Mathlib.Data.List.Nodup
import Mathlib.Data.Option.Basic
import LoopzToken.Lib.Json

/-!
# LoopzToken.Worker.Outbox

The `outbox_events` table: the rows `schema.prisma` declares, the table as a
list of rows with a primary key, and the writes the Prisma client makes to it
(`update` and `updateMany`, both "set these fields where the id matches").

Everything later is stated through `Table.find?`, the row with a given id, so
the row order of the list never shows outside the claim query.

The columns are unbounded here: `attempts` is a number of any size, where the
database has an `INT4`, and `lastError` any text, where it refuses a NUL.
-/

namespace LoopzToken.Worker

open Lib (Json)

/-- `enum OutboxStatus`. -/
inductive OutboxStatus
  | pending
  | processing
  | done
  | failed
  deriving DecidableEq, Repr

/-- A `DateTime`, in milliseconds since the epoch. -/
abbrev DateTime := Int

/-- `model OutboxEvent`: one row of `outbox_events`. -/
structure OutboxEvent where
  id : String
  eventType : String
  payload : Json
  status : OutboxStatus
  attempts : ℕ
  nextRunAt : DateTime
  lastError : Option String
  createdAt : DateTime
  doneAt : Option DateTime

/-- The `data` of a Prisma update: a field left out keeps its value. -/
structure OutboxUpdate where
  status : Option OutboxStatus := none
  attempts : Option ℕ := none
  nextRunAt : Option DateTime := none
  lastError : Option String := none
  doneAt : Option DateTime := none

/-- The row after an update. -/
def OutboxUpdate.apply (u : OutboxUpdate) (r : OutboxEvent) : OutboxEvent :=
  { r with
    status := u.status.getD r.status
    attempts := u.attempts.getD r.attempts
    nextRunAt := u.nextRunAt.getD r.nextRunAt
    lastError := u.lastError.or r.lastError
    doneAt := u.doneAt.or r.doneAt }

@[simp] theorem OutboxUpdate.apply_id (u : OutboxUpdate) (r : OutboxEvent) :
    (u.apply r).id = r.id := rfl

/-- `outbox_events`: rows with pairwise different ids. -/
structure Table where
  rows : List OutboxEvent
  nodup : (rows.map (·.id)).Nodup

namespace Table

/-- The ids in the table, in row order. -/
def ids (T : Table) : List String := T.rows.map (·.id)

/-- The table before anything was inserted. -/
def empty : Table := ⟨[], List.nodup_nil⟩

/-- The row with the given id. -/
def find? (T : Table) (i : String) : Option OutboxEvent :=
  T.rows.find? fun r => r.id = i

/-- The rows a query visits, in the order it visits them: PostgreSQL promises
no order of its own, so the order is an argument. -/
def scan (T : Table) (order : List String) : List OutboxEvent := order.filterMap T.find?

/-- `UPDATE … SET u WHERE p(id)`. -/
def updateWhere (T : Table) (p : String → Bool) (u : OutboxUpdate) : Table where
  rows := T.rows.map fun r => if p r.id then u.apply r else r
  nodup := by
    have hid : ((fun r : OutboxEvent => r.id) ∘ fun r => if p r.id then u.apply r else r) =
        fun r => r.id := by
      funext r
      by_cases h : p r.id <;> simp [h]
    rw [List.map_map, hid]
    exact T.nodup

/-- `outboxEvent.update({ where: { id }, data: u })`. -/
def update (T : Table) (i : String) (u : OutboxUpdate) : Table := T.updateWhere (· == i) u

/-- `outboxEvent.updateMany({ where: { id: { in: ids } }, data: u })`. -/
def updateMany (T : Table) (is : List String) (u : OutboxUpdate) : Table :=
  T.updateWhere (is.contains ·) u

/-- `outboxEvent.findMany({ where: { id: { in: ids } } })`: there is no
`orderBy`, so the rows come in the order of the scan. -/
def findMany (T : Table) (is order : List String) : List OutboxEvent :=
  (T.scan order).filter fun r => is.contains r.id

/-- `INSERT`: refused when the primary key is taken. -/
def insert (T : Table) (r : OutboxEvent) : Option Table :=
  if h : r.id ∈ T.ids then none
  else some ⟨r :: T.rows, by rw [List.map_cons]; exact List.nodup_cons.mpr ⟨h, T.nodup⟩⟩

/-! ### Looking rows up -/

theorem find?_id {T : Table} {i : String} {r : OutboxEvent} (h : T.find? i = some r) :
    r.id = i := by
  simpa using List.find?_some h

theorem mem_of_find? {T : Table} {i : String} {r : OutboxEvent} (h : T.find? i = some r) :
    r ∈ T.rows := List.mem_of_find?_eq_some h

theorem find?_of_mem {T : Table} {r : OutboxEvent} (h : r ∈ T.rows) :
    T.find? r.id = some r := by
  obtain ⟨rows, hnd⟩ := T
  simp only [find?] at *
  induction rows with
  | nil => cases h
  | cons q rows ih =>
      simp only [List.map_cons, List.nodup_cons] at hnd
      rcases List.mem_cons.mp h with rfl | h
      · simp
      · have hne : q.id ≠ r.id := fun he => hnd.1 (he ▸ List.mem_map_of_mem h)
        rw [List.find?_cons_of_neg (by simpa using hne)]
        exact ih hnd.2 h

theorem mem_ids_iff {T : Table} {i : String} : i ∈ T.ids ↔ ∃ r, T.find? i = some r := by
  simp only [ids, List.mem_map]
  constructor
  · intro h
    obtain ⟨r, hr, rfl⟩ := h
    exact ⟨r, find?_of_mem hr⟩
  · intro h
    obtain ⟨r, hr⟩ := h
    exact ⟨r, mem_of_find? hr, find?_id hr⟩

/-! ### What a write does to each row -/

theorem find?_updateWhere (T : Table) (p : String → Bool) (u : OutboxUpdate) (i : String) :
    (T.updateWhere p u).find? i = if p i then (T.find? i).map u.apply else T.find? i := by
  obtain ⟨rows, hnd⟩ := T
  simp only [find?, updateWhere]
  clear hnd
  induction rows with
  | nil => cases p i <;> rfl
  | cons r rows ih =>
      rw [List.map_cons]
      by_cases hr : r.id = i
      · subst hr
        by_cases hp : p r.id <;> simp [hp]
      · have hr' : (if p r.id then u.apply r else r).id ≠ i := by split <;> simpa using hr
        rw [List.find?_cons_of_neg (by simpa using hr'), List.find?_cons_of_neg (by simpa using hr)]
        exact ih

theorem find?_update (T : Table) (u : OutboxUpdate) (i j : String) :
    (T.update i u).find? j = if j = i then (T.find? j).map u.apply else T.find? j := by
  rw [update, find?_updateWhere]
  by_cases h : j = i <;> simp [h]

theorem find?_update_self (T : Table) (u : OutboxUpdate) {i : String} {r : OutboxEvent}
    (h : T.find? i = some r) : (T.update i u).find? i = some (u.apply r) := by
  rw [find?_update, if_pos rfl, h, Option.map_some]

theorem find?_update_of_ne (T : Table) (u : OutboxUpdate) {i j : String} (h : j ≠ i) :
    (T.update i u).find? j = T.find? j := by
  rw [find?_update, if_neg h]

theorem find?_updateMany (T : Table) (is : List String) (u : OutboxUpdate) (j : String) :
    (T.updateMany is u).find? j = if j ∈ is then (T.find? j).map u.apply else T.find? j := by
  rw [updateMany, find?_updateWhere]
  by_cases h : j ∈ is <;> simp [h]

/-- An inserted row was absent and is now present; nothing else moves. -/
theorem insert_inv {T T' : Table} {r : OutboxEvent} (h : T.insert r = some T') :
    T.find? r.id = none ∧
      ∀ j, T'.find? j = if j = r.id then some r else T.find? j := by
  unfold insert at h
  split at h
  · exact absurd h (by simp)
  · rename_i hn
    obtain rfl := Option.some.inj h
    constructor
    · rw [Option.eq_none_iff_forall_not_mem]
      intro q hq
      exact hn (mem_ids_iff.mpr ⟨q, hq⟩)
    · intro j
      by_cases hj : j = r.id
      · subst hj
        simp [find?]
      · rw [if_neg hj, find?, find?, List.find?_cons_of_neg (by simpa using Ne.symm hj)]

/-! ### Scans -/

theorem mem_scan {T : Table} {order : List String} {r : OutboxEvent} :
    r ∈ T.scan order ↔ r.id ∈ order ∧ T.find? r.id = some r := by
  simp only [scan, List.mem_filterMap]
  constructor
  · intro h
    obtain ⟨i, hi, hr⟩ := h
    obtain rfl := find?_id hr
    exact ⟨hi, hr⟩
  · intro h
    obtain ⟨hi, hr⟩ := h
    exact ⟨r.id, hi, hr⟩

theorem scan_ids_sublist (T : Table) (order : List String) :
    ((T.scan order).map (·.id)).Sublist order := by
  induction order with
  | nil => exact List.Sublist.slnil
  | cons i order ih =>
      simp only [scan] at *
      rw [List.filterMap_cons]
      cases h : T.find? i with
      | none => exact ih.cons i
      | some r =>
          obtain rfl := find?_id h
          exact ih.cons_cons r.id

theorem mem_findMany {T : Table} {is order : List String} {r : OutboxEvent} :
    r ∈ T.findMany is order ↔ r.id ∈ is ∧ r.id ∈ order ∧ T.find? r.id = some r := by
  simp only [findMany, List.mem_filter, mem_scan, List.contains_iff_mem]
  tauto

theorem findMany_ids_nodup {T : Table} {is order : List String} (h : order.Nodup) :
    ((T.findMany is order).map (·.id)).Nodup :=
  ((List.filter_sublist.map _).trans (scan_ids_sublist T order)).nodup h

end Table

end LoopzToken.Worker
