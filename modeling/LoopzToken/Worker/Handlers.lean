import LoopzToken.Lib.JsObject
import LoopzToken.Worker.Handled

/-!
# LoopzToken.Worker.Handlers

`handleEvent` and its registry. `handlers` is an object literal, and it is indexed by a
string from the database: a lookup that misses the registered names goes on to
`Object.prototype`. So `!handler` refuses every unregistered name but the inherited ones
(`registeredOnly_iff`), and rows of three inherited names are even marked `DONE`.

What reaches `DONE` was returned from: in every run a `DONE` row has a type and a payload
for which `handleEvent` can return (`done_consumed`), whatever the handlers are.
-/

namespace LoopzToken.Worker

open Lib Machine

/-! ### The registry -/

/-- `OUTBOX_EVENT_TYPES`. -/
def outboxEventTypes : List String :=
  ["request.completed", "request.failed", "billing.settled", "payment.credited",
    "refund.completed", "provider.health_changed"]

/-- The placeholder behind every handler: it prints one line. -/
def notImplemented (eventType : String) : Completion where
  console := [s!"[worker] event consumed (handler TODO): {eventType}"]
  result := .ok ()

/-- `handlers`: an object literal. `text` are the texts of the engine's own errors. -/
def handlers (text : String → Json → String) : PropertyChain JsValue :=
  .object [
    ("request.completed", .function fun _ => notImplemented "request.completed"),
    ("request.failed", .function fun _ => notImplemented "request.failed"),
    ("billing.settled", .function fun _ => notImplemented "billing.settled"),
    ("payment.credited", .function fun _ => notImplemented "payment.credited"),
    ("refund.completed", .function fun _ => notImplemented "refund.completed"),
    ("provider.health_changed", .function fun _ => notImplemented "provider.health_changed")]
    (objectPrototype text)

/-- The error of an event type that is not registered. -/
def unknownType (eventType : String) : JsError :=
  .error s!"unknown outbox event type: {eventType}"

/-- `handleEvent`. -/
def handleEvent (text : String → Json → String) (eventType : String) (payload : Json) :
    Completion :=
  match (handlers text).get eventType with
  -- `!handler`: no value in the chain is falsy
  | none => .throws (unknownType eventType)
  | some handler => handler.call (text eventType) payload

variable {text : String → Json → String}

theorem handlers_keys : (handlers text).keys = outboxEventTypes ++ objectPrototypeNames := by
  rw [handlers, PropertyChain.keys, objectPrototype_keys]
  rfl

/-- A registered type is confirmed, with one line that names it. -/
theorem handleEvent_registered {eventType : String} (h : eventType ∈ outboxEventTypes)
    (payload : Json) : handleEvent text eventType payload = notImplemented eventType := by
  simp only [outboxEventTypes, List.mem_cons, List.not_mem_nil, or_false] at h
  rcases h with rfl | rfl | rfl | rfl | rfl | rfl <;> rfl

theorem handleEvent_unknown {eventType : String} (h : eventType ∉ outboxEventTypes)
    (hproto : eventType ∉ objectPrototypeNames) (payload : Json) :
    handleEvent text eventType payload = .throws (unknownType eventType) := by
  have hkeys : eventType ∉ (handlers text).keys := by
    rw [handlers_keys, List.mem_append, not_or]
    exact ⟨h, hproto⟩
  rw [handleEvent, PropertyChain.get_eq_none_iff.mpr hkeys]

/-- No inherited name is registered. -/
theorem inherited_unregistered {eventType : String} (h : eventType ∈ objectPrototypeNames) :
    eventType ∉ outboxEventTypes := by
  have hdisjoint : ∀ t ∈ objectPrototypeNames, t ∉ outboxEventTypes := by decide
  exact hdisjoint eventType h

theorem handleEvent_inherited {eventType : String} (h : eventType ∈ objectPrototypeNames)
    (payload : Json) : (handleEvent text eventType payload).result =
      if eventType = "constructor" ∨ eventType = "toString" ∨
          (eventType = "isPrototypeOf" ∧ payload.isObject = false)
      then .ok () else .error (.typeError (text eventType payload)) := by
  obtain ⟨v, hv, hcall⟩ := objectPrototype_call text h payload
  have hget : (handlers text).get eventType = some v :=
    (PropertyChain.get_inherited (inherited_unregistered h)).trans hv
  rw [handleEvent, hget]
  exact hcall

/-- **What `handleEvent` returns from**: the registered types, and three names that every
object inherits. -/
theorem handleEvent_returns_iff {eventType : String} {payload : Json} :
    (handleEvent text eventType payload).result = .ok () ↔
      eventType ∈ outboxEventTypes ∨ eventType = "constructor" ∨ eventType = "toString" ∨
        (eventType = "isPrototypeOf" ∧ payload.isObject = false) := by
  by_cases hreg : eventType ∈ outboxEventTypes
  · simp [handleEvent_registered hreg, notImplemented, hreg]
  by_cases hproto : eventType ∈ objectPrototypeNames
  · rw [handleEvent_inherited hproto]
    split <;> simp_all
  · rw [handleEvent_unknown hreg hproto]
    have hne : ∀ t ∈ objectPrototypeNames, eventType ≠ t := fun t ht he => hproto (he ▸ ht)
    simp [Completion.throws, hreg, hne "constructor" (by decide), hne "toString" (by decide),
      hne "isPrototypeOf" (by decide)]

/-- A type that is not inherited must be registered. -/
theorem registered_of_returns {eventType : String} {payload : Json}
    (hproto : eventType ∉ objectPrototypeNames)
    (h : (handleEvent text eventType payload).result = .ok ()) :
    eventType ∈ outboxEventTypes := by
  rcases handleEvent_returns_iff.mp h with h | rfl | rfl | ⟨rfl, -⟩
  · exact h
  all_goals exact absurd (by decide) hproto

/-! ### What a `DONE` row went through -/

/-- What `handleEvent` can do, for the worker. -/
def outcomes (text : String → Json → String) : Handlers := fun eventType payload outcome =>
  match (handleEvent text eventType payload).result, outcome with
  | .ok (), .ok () => true
  | .error e, .error m => e.message = m
  | _, _ => false

theorem outcomes_ok {eventType : String} {payload : Json} :
    outcomes text eventType payload (.ok ()) = true ↔
      (handleEvent text eventType payload).result = .ok () := by
  unfold outcomes
  cases (handleEvent text eventType payload).result <;> simp

variable {H : Handlers}

/-- The handler can return for the row. -/
def Consumed (H : Handlers) (r : OutboxEvent) : Prop := H r.eventType r.payload (.ok ()) = true

/-- `markDone` is only called for an event whose handler returned. -/
def Phase.MarksConsumed (H : Handlers) : Phase → Prop
  | .markingDone event _ _ _ => Consumed H event
  | _ => True

/-- Only such rows are `DONE` or about to be. -/
structure State.DoneConsumed (H : Handlers) (s : State) : Prop where
  rows : ∀ i r, s.table.find? i = some r → r.status = .done → Consumed H r
  phases : ∀ t ∈ s.ticks, t.phase.MarksConsumed H

theorem Phase.Step.marksConsumed {locked : List String} {T T' : Table} {ph ph' : Phase}
    {a : TickAction} (h : ph.Step H locked T a T' ph') (hp : ph.MarksConsumed H) :
    ph'.MarksConsumed H := by
  cases h with
  | handlerReturned hH => exact hH
  | applyDone => exact hp
  | _ => trivial

theorem RowStep.consumed {ev : Option RowEvent} {r : Option OutboxEvent} {r' : OutboxEvent}
    (h : RowStep ev r (some r')) (hd : r'.status = .done)
    (hrow : ∀ q, r = some q → q.status = .done → Consumed H q)
    (hdone : ∀ q issued, r = some q → ev = some (.done issued) → Consumed H q) :
    Consumed H r' := by
  cases h with
  | quiet => exact hrow r' rfl hd
  | inserted hp => exact absurd (hp.symm.trans hd) (by decide)
  | claimed => cases hd
  | @done e issued he => exact hdone e issued rfl rfl
  | failed | reopened => exact absurd hd (markFailed_status_ne ..).2

/-- The `markDone` a step applies to a row is that of an event whose handler returned. -/
theorem State.DoneConsumed.done {s : State} {a : Action} (hok : s.Ok) (hs : s.DoneConsumed H)
    {i : String} {q : OutboxEvent} (hq : s.table.find? i = some q) {issued : DateTime}
    (hev : rowEvent i (s, a) = some (.done issued)) : Consumed H q := by
  obtain ⟨t, ht, e, rest, hph, rfl⟩ := rowEvent_done hev
  have hokt := hok.phases t ht
  have hmark := hs.phases t ht
  rw [hph] at hokt hmark
  -- the row still is the event as it was claimed
  obtain rfl := Option.some.inj (hq.symm.trans hokt.2.1)
  exact hmark

theorem State.DoneConsumed.step {s s' : State} {a : Action} (hok : s.Ok)
    (hs : s.DoneConsumed H) (h : State.Step H s a s') : s'.DoneConsumed H := by
  refine ⟨fun i r hr hd => ?_, fun t ht => ?_⟩
  · have hrow := hok.row h i
    rw [hr] at hrow
    exact hrow.consumed hd (hs.rows i) fun q issued hq hev => hs.done hok hq hev
  · cases h with
    | start hp =>
        rcases List.mem_append.mp ht with ht | ht
        · exact hs.phases t ht
        · obtain rfl := List.mem_singleton.mp ht
          trivial
    | tick hi halive hstep =>
        rcases mem_set_cases ht with rfl | ⟨j, -, hj⟩
        · exact hstep.marksConsumed (hs.phases _ (List.mem_of_getElem? hi))
        · exact hs.phases t (List.mem_of_getElem? hj)
    | insert | signal | exit => exact hs.phases t ht

/-- **`DONE` rows were consumed.** In every reachable state the handler can return for
every row that is `DONE`. -/
theorem done_consumed {h : List (State × Action)} {s : State} (hr : (worker H).Run .init h s)
    {r : OutboxEvent} (hrow : r ∈ s.table.rows) (hd : r.status = .done) : Consumed H r := by
  have hs : s.Ok ∧ s.DoneConsumed H := by
    refine hr.invariant (I := fun t => t.Ok ∧ t.DoneConsumed H) (fun t a v hI hstep => ?_) ?_
    · exact ⟨hI.1.step? hstep, hI.2.step hI.1 (State.step_of_step? hstep)⟩
    · exact ⟨State.ok_init, fun i q hq => absurd hq (by simp [State.init, Table.empty,
        Table.find?]), fun t ht => absurd ht List.not_mem_nil⟩
  exact hs.2.rows r.id r (Table.find?_of_mem hrow) hd

/-! ### Registered types only -/

/-- Only registered event types are consumed, for one event type. -/
structure RegisteredOnly (text : String → Json → String) (eventType : String) : Prop where
  returns : ∀ payload, (handleEvent text eventType payload).result = .ok () →
    eventType ∈ outboxEventTypes
  unknown : eventType ∉ outboxEventTypes → ∀ payload,
    (handleEvent text eventType payload).result = .error (unknownType eventType)
  done : eventType ∉ outboxEventTypes → ∀ h s, (worker (outcomes text)).Run .init h s →
    ∀ r ∈ s.table.rows, r.eventType = eventType → r.status ≠ .done

/-- **When only registered types are consumed**: for every event type but the property
names of `Object.prototype`. -/
theorem registeredOnly_iff (text : String → Json → String) (eventType : String) :
    RegisteredOnly text eventType ↔ eventType ∉ objectPrototypeNames := by
  constructor
  · intro h hproto
    have hunreg := inherited_unregistered hproto
    have hcall := h.unknown hunreg .null
    rw [handleEvent_inherited hproto] at hcall
    split at hcall <;> cases hcall
  · intro hproto
    refine ⟨fun payload => registered_of_returns hproto, fun hunreg payload => ?_,
      fun hunreg h s hr r hrow ht hd => ?_⟩
    · rw [handleEvent_unknown hunreg hproto]
      rfl
    · subst ht
      exact hunreg (registered_of_returns hproto (outcomes_ok.mp (done_consumed hr hrow hd)))

/-- Texts an engine may choose. -/
def engineText (name : String) (_ : Json) : String :=
  if name = "__proto__" then "handler is not a function"
  else "Cannot convert undefined or null to object"

/-- A row with an inherited name for its type is claimed, consumed and marked. -/
def constructorRow : List Action :=
  [.insert { freshRow "a" with eventType := "constructor" }, .start 0, .tick 0 (.select 5 ["a"]),
   .tick 0 (.commit ["a"]), .tick 0 .claimReturned, .tick 0 .next,
   .tick 0 (.handlerReturned 7), .tick 0 .applyWrite, .tick 0 .writeReturned, .tick 0 .next]

theorem constructorRow_done :
    ¬ RegisteredOnly engineText "constructor" ∧ "constructor" ∉ outboxEventTypes ∧
      (handleEvent engineText "constructor" .null).result = .ok () ∧
      ∃ h s, (worker (outcomes engineText)).Run .init h s ∧
        ∃ r ∈ s.table.rows, r.eventType = "constructor" ∧ r.status = .done := by
  refine ⟨fun h => ?_, by decide, rfl, ?_⟩
  · exact absurd (h.returns .null rfl) (by decide)
  · obtain ⟨h, s, hr, hp⟩ := (worker (outcomes engineText)).exists_run_of_exec constructorRow
      (fun _ s => s.table.rows.any fun r => r.eventType = "constructor" ∧ r.status = .done)
      (by decide)
    simp only [List.any_eq_true, decide_eq_true_eq] at hp
    exact ⟨h, s, hr, hp⟩

end LoopzToken.Worker
