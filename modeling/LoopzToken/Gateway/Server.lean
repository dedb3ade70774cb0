import LoopzToken.Lib.Family
import LoopzToken.Lib.GoMarshal
import LoopzToken.Lib.Journal
import LoopzToken.Lib.Machine
import LoopzToken.Lib.Redirect
import LoopzToken.Gateway.ApiKey
import LoopzToken.Gateway.StatusWriter

/-!
# LoopzToken.Gateway.Server

The gateway's HTTP server with any number of requests under way. A request gets an id,
which is sent back in the header `X-Loopz-Request-Id` and written into every line that is
logged for it; the handlers run side by side and log into one journal.

Whatever the order of the steps is, the lines with the id of a response tell what happened
to that request, with the status that was sent, as long as no id was drawn twice; and only
as long (`log_by_id`).

The duration in a line, the deadline of a request, which no handler looks at, and a client
that goes away are left out.
-/

namespace LoopzToken.Gateway

open Lib GoJson Url ServeMux Redirect Machine Journal

/-! ### Routes -/

inductive Protocol
  | openAIChat
  | openAIResponses
  | anthropicMessages
  | geminiNative
  | customHTTP
  deriving DecidableEq, Repr

/-- The protocol as a string. -/
def Protocol.name : Protocol → Bytes
  | .openAIChat => utf8 "openai_chat"
  | .openAIResponses => utf8 "openai_responses"
  | .anthropicMessages => utf8 "anthropic_messages"
  | .geminiNative => utf8 "gemini_native"
  | .customHTTP => utf8 "custom_http"

inductive Handler
  | handleHealth
  | handleModels
  | handleProxy (protocol : Protocol)
  deriving DecidableEq, Repr

/-- `Server.routes`. -/
def routes : List (Pattern × Handler) :=
  [(parsePattern "GET /healthz", .handleHealth),
   (parsePattern "GET /v1/models", .handleModels),
   (parsePattern "POST /v1/chat/completions", .handleProxy .openAIChat),
   (parsePattern "POST /v1/responses", .handleProxy .openAIResponses),
   (parsePattern "POST /v1/messages", .handleProxy .anthropicMessages)]

/-! ### One request -/

/-- A request that `net/http` could read, as far as the server looks at it. -/
structure HttpRequest where
  method : Bytes
  url : URL

/-- The lines that are logged. -/
inductive LogRecord
  | httpRequest (requestID method path : Bytes) (status : StatusCode)
  | proxyNotImplemented (requestID protocol path : Bytes)
  deriving DecidableEq

/-- The `request_id` of a line. -/
def LogRecord.requestID : LogRecord → Bytes
  | .httpRequest requestID _ _ _ => requestID
  | .proxyNotImplemented requestID _ _ => requestID

/-- `newRequestID`, with what was drawn; `none` when nothing could be. -/
def newRequestID : Option (Block 8) → Bytes
  | none => utf8 "unknown"
  | some buf => Hex.encode buf.1

/-- What a handler does, one at a time. -/
inductive Action
  | call (c : ResponseCall)
  | log (r : LogRecord)

/-- `apiErrorBody`, with its only type. -/
def apiErrorBody (message : Bytes) : Value :=
  .struct [(utf8 "error", .struct
    [(utf8 "message", .string message), (utf8 "type", .string (utf8 "not_implemented"))])]

def writeAPIError (status : StatusCode) (message : Bytes) : List ResponseCall :=
  writeJSON status (encode (apiErrorBody message))

def handleHealth : List ResponseCall :=
  writeJSON .ok (encode (.struct [(utf8 "status", .string (utf8 "ok"))]))

def handleModels : List ResponseCall :=
  writeAPIError StatusCode.notImplemented (utf8 "models listing not implemented yet")

def handleProxy (protocol : Protocol) (r : HttpRequest) (requestID : Bytes) : List Action :=
  .log (.proxyNotImplemented requestID protocol.name r.url.path) ::
    (writeAPIError StatusCode.notImplemented
      (utf8 "model API forwarding not implemented yet")).map .call

/-- `mux.ServeHTTP`: the actions of the handler that is called. -/
def serveMux (r : HttpRequest) (requestID : Bytes) : List Action :=
  match findHandler routes r.method r.url.escapedPath with
  | .handled .handleHealth _ => handleHealth.map .call
  | .handled .handleModels _ => handleModels.map .call
  | .handled (.handleProxy protocol) _ => handleProxy protocol r requestID
  | .redirect path => (redirect r.method path r.url.rawQuery).map .call
  | .notFound => notFound.map .call
  | .methodNotAllowed => methodNotAllowed.map .call
  -- a request that cannot be read does not come here
  | .badRequest => []

/-! ### The server -/

/-- A request under way: its id, which is also in the header of the response, the actions
its handler still has to make, and the response. -/
structure Exchange where
  request : HttpRequest
  requestID : Bytes
  todo : List Action
  writer : StatusWriter Lib.Response
  finished : Bool

/-- `middleware`, before the handler. -/
def Exchange.start (r : HttpRequest) (draw : Option (Block 8)) : Exchange where
  request := r
  requestID := newRequestID draw
  todo := serveMux r (newRequestID draw)
  writer := { responseWriter := .new, status := .ok }
  finished := false

/-- The last line. -/
def Exchange.record (e : Exchange) : LogRecord :=
  .httpRequest e.requestID e.request.method e.request.url.path e.writer.status

/-- The next action of the handler, or after the last one the line of `middleware`; and
what is logged. -/
def Exchange.step (e : Exchange) : Option (Exchange × List LogRecord) :=
  match e.todo with
  | .call c :: todo => some ({ e with todo := todo, writer := e.writer.call Lib.Response.call c }, [])
  | .log r :: todo => some ({ e with todo := todo }, [r])
  | [] => if e.finished then none else some ({ e with finished := true }, [e.record])

/-- The requests that were accepted, and the journal. -/
structure State where
  exchanges : List Exchange
  journal : List (ℕ × LogRecord)

def State.init : State := ⟨[], []⟩

/-- The lines of the log. -/
def State.log (s : State) : List LogRecord := s.journal.map (·.2)

inductive Event
  /-- A request arrives, with what is drawn for its id. -/
  | accept (r : HttpRequest) (draw : Option (Block 8))
  /-- Request `i` makes a step. -/
  | step (i : ℕ)

def State.step (s : State) : Event → Option State
  | .accept r draw => some { s with exchanges := s.exchanges ++ [.start r draw] }
  | .step i =>
      s.exchanges[i]?.bind fun e => e.step.map fun next =>
        { exchanges := s.exchanges.set i next.1
          journal := s.journal ++ next.2.map (i, ·) }

def server : Machine State Event := ⟨.init, State.step⟩

/-! ### What is logged is what was sent -/

def Action.call? : Action → Option ResponseCall
  | .call c => some c
  | .log _ => none

def Action.record? : Action → Option LogRecord
  | .call _ => none
  | .log r => some r

@[simp] theorem Action.call?_call (c : ResponseCall) : (Action.call c).call? = some c := rfl

@[simp] theorem Action.call?_log (r : LogRecord) : (Action.log r).call? = none := rfl

@[simp] theorem Action.record?_call (c : ResponseCall) : (Action.call c).record? = none := rfl

@[simp] theorem Action.record?_log (r : LogRecord) : (Action.log r).record? = some r := rfl

@[simp] theorem filterMap_call?_map (calls : List ResponseCall) :
    (calls.map Action.call).filterMap Action.call? = calls := by
  rw [List.filterMap_map]
  exact List.filterMap_some

/-- A handler that sets a final status first, and then only writes. -/
theorem logged_eq_sent_of_header {code : StatusCode} {calls : List ResponseCall}
    (hinf : ¬ code.Informational) (hcalls : ∀ c ∈ calls, header c = none) :
    loggedStatus (.writeHeader code :: calls) = sentStatus (.writeHeader code :: calls) :=
  (@logged_eq_sent_of_last [] calls code hcalls).mpr ⟨hinf, by simp⟩

/-- All handlers of the gateway do. -/
theorem logged_eq_sent (r : HttpRequest) (requestID : Bytes) :
    loggedStatus ((serveMux r requestID).filterMap Action.call?) =
      sentStatus ((serveMux r requestID).filterMap Action.call?) := by
  unfold serveMux
  split
  · exact logged_eq_sent_of_header (by decide) (by simp [header])
  · exact logged_eq_sent_of_header (by decide) (by simp [header])
  · exact logged_eq_sent_of_header (by decide) (by simp [header])
  · rw [filterMap_call?_map]
    refine logged_eq_sent_of_header (by decide) fun c hc => ?_
    split_ifs at hc
    · rw [List.mem_singleton.mp hc]
      rfl
    · cases hc
  · exact logged_eq_sent_of_header (by decide) (by simp [header])
  · exact logged_eq_sent_of_header (by decide) (by simp [header])
  · rfl

/-! ### The lines of one request -/

/-- The protocol of the endpoint that the request is for, if it is one of the model API. -/
def HttpRequest.proxied (r : HttpRequest) : Option Protocol :=
  match findHandler routes r.method r.url.escapedPath with
  | .handled (.handleProxy protocol) _ => some protocol
  | _ => none

/-- What is to be found in the log about a request that is finished. -/
def Exchange.lines (e : Exchange) : List LogRecord :=
  (e.request.proxied.map fun protocol =>
    .proxyNotImplemented e.requestID protocol.name e.request.url.path).toList ++
  [.httpRequest e.requestID e.request.method e.request.url.path e.writer.responseWriter.status]

theorem serveMux_records (r : HttpRequest) (requestID : Bytes) :
    (serveMux r requestID).filterMap Action.record? = (r.proxied.map fun protocol =>
      LogRecord.proxyNotImplemented requestID protocol.name r.url.path).toList := by
  unfold serveMux HttpRequest.proxied
  split <;> simp [handleProxy, *]

/-- How far a request is, with the lines it wrote so far. -/
structure Progress (e : Exchange) (written : List LogRecord) : Prop where
  split : ∃ did, did ++ e.todo = serveMux e.request e.requestID ∧
    e.writer = middleware (did.filterMap Action.call?) ∧
      written = did.filterMap Action.record? ++ if e.finished then [e.record] else []
  todo_nil : e.finished = true → e.todo = []

theorem Progress.start (r : HttpRequest) (draw : Option (Block 8)) :
    Progress (.start r draw) [] :=
  ⟨⟨[], rfl, rfl, rfl⟩, fun h => nomatch h⟩

/-- A finished request wrote its lines. -/
theorem Progress.lines {e : Exchange} {written : List LogRecord} (h : Progress e written)
    (hfin : e.finished = true) : written = e.lines := by
  obtain ⟨⟨did, hdid, hwriter, hwritten⟩, hnil⟩ := h
  rw [hnil hfin, List.append_nil] at hdid
  have hstatus : e.writer.status = e.writer.responseWriter.status := by
    rw [hwriter, hdid]
    exact logged_eq_sent e.request e.requestID
  rw [hwritten, hdid, serveMux_records, if_pos hfin, Exchange.record, hstatus]
  rfl

/-- Before it is finished, a request writes what its handler logs. -/
theorem Progress.written {e : Exchange} {written : List LogRecord} (h : Progress e written)
    {a : Action} {todo : List Action} (htodo : e.todo = a :: todo) :
    e.finished = false ∧ ∀ r, a = .log r → r.requestID = e.requestID := by
  obtain ⟨⟨did, hdid, -, -⟩, hnil⟩ := h
  refine ⟨Bool.eq_false_iff.mpr fun hfin => ?_, fun r hr => ?_⟩
  · rw [hnil hfin] at htodo
    cases htodo
  · have hmem : r ∈ (serveMux e.request e.requestID).filterMap Action.record? := by
      rw [← hdid, htodo, hr]
      simp
    rw [serveMux_records, Option.mem_toList, Option.map_eq_some_iff] at hmem
    obtain ⟨protocol, -, rfl⟩ := hmem
    rfl

/-- One step of a request, the lines it logs included. -/
theorem Progress.step {e e' : Exchange} {written new : List LogRecord} (h : Progress e written)
    (hs : e.step = some (e', new)) :
    Progress e' (written ++ new) ∧ e'.requestID = e.requestID ∧
      ∀ r ∈ new, r.requestID = e.requestID := by
  obtain ⟨⟨did, hdid, hwriter, hwritten⟩, hnil⟩ := id h
  unfold Exchange.step at hs
  split at hs
  · rename_i c todo htodo
    obtain ⟨hfin, -⟩ := h.written htodo
    obtain ⟨rfl, rfl⟩ := Prod.mk.inj (Option.some.inj hs)
    refine ⟨⟨⟨did ++ [.call c], by simp [← hdid, htodo], ?_, ?_⟩, by simp [hfin]⟩, rfl, by simp⟩
    · simp [hwriter, middleware, List.filterMap_append]
    · simp [hwritten, hfin, List.filterMap_append]
  · rename_i r todo htodo
    obtain ⟨hfin, hid⟩ := h.written htodo
    obtain ⟨rfl, rfl⟩ := Prod.mk.inj (Option.some.inj hs)
    refine ⟨⟨⟨did ++ [.log r], by simp [← hdid, htodo], ?_, ?_⟩, by simp [hfin]⟩, rfl, ?_⟩
    · simp only [hwriter, List.filterMap_append, List.filterMap_cons, Action.call?_log,
        List.filterMap_nil, List.append_nil]
    · simp [hwritten, hfin, List.filterMap_append]
    · simp [hid r rfl]
  · rename_i htodo
    split_ifs at hs with hfin
    obtain ⟨rfl, rfl⟩ := Prod.mk.inj (Option.some.inj hs)
    refine ⟨⟨⟨did, hdid, hwriter, ?_⟩, fun _ => htodo⟩, rfl, ?_⟩
    · simp [hwritten, hfin, Exchange.record]
    · simp [Exchange.record, LogRecord.requestID]

/-! ### All requests -/

/-- What holds of the server at any time: every request wrote what it should have by now,
and under its id. -/
structure State.Kept (s : State) : Prop where
  progress : ∀ i e, s.exchanges[i]? = some e → Progress e (ofWriter s.journal i)
  keyed : Keyed LogRecord.requestID (s.exchanges.map (·.requestID)) s.journal

/-- Requests to come have not written anything. -/
theorem State.Kept.ofWriter_nil {s : State} (h : s.Kept) {i : ℕ} (hi : s.exchanges.length ≤ i) :
    ofWriter s.journal i = [] := by
  refine List.filterMap_eq_nil_iff.mpr fun entry hentry => if_neg ?_
  intro heq
  have hsome := h.keyed entry hentry
  rw [heq, List.getElem?_eq_none (by simpa using hi)] at hsome
  cases hsome

theorem State.Kept.step {s s' : State} {a : Event} (h : s.Kept) (hs : s.step a = some s') :
    s'.Kept := by
  cases a with
  | accept r draw =>
      obtain rfl := Option.some.inj hs
      refine ⟨fun i e he => ?_, fun entry hentry => ?_⟩
      · rcases Nat.lt_trichotomy i s.exchanges.length with hlt | heq | hgt
        · rw [List.getElem?_append_left hlt] at he
          exact h.progress i e he
        · subst heq
          rw [List.getElem?_concat_length] at he
          obtain rfl := Option.some.inj he
          rw [h.ofWriter_nil (Nat.le_refl _)]
          exact .start r draw
        · rw [List.getElem?_eq_none (by simp; omega)] at he
          cases he
      · have hkey := h.keyed entry hentry
        rw [List.map_append, List.getElem?_append_left (List.getElem?_eq_some_iff.mp hkey).1]
        exact hkey
  | step i =>
      obtain ⟨e, he, hs⟩ := Option.bind_eq_some_iff.mp hs
      obtain ⟨⟨e', new⟩, hstep, rfl⟩ := Option.map_eq_some_iff.mp hs
      obtain ⟨hprogress, hid, hnew⟩ := (h.progress i e he).step hstep
      have hkeys : (s.exchanges.set i e').map (·.requestID) = s.exchanges.map (·.requestID) := by
        obtain ⟨l₁, l₂, hl, hset⟩ := set_split he
        rw [hset, hl]
        simp [hid]
      refine ⟨fun j d hd => ?_, fun entry hentry => ?_⟩
      · show Progress d (ofWriter (s.journal ++ _) j)
        rw [ofWriter_append]
        by_cases hij : i = j
        · subst hij
          rw [List.getElem?_set_self (List.getElem?_eq_some_iff.mp he).1] at hd
          obtain rfl := Option.some.inj hd
          rw [ofWriter_self]
          exact hprogress
        · rw [List.getElem?_set_ne hij] at hd
          rw [ofWriter_other hij, List.append_nil]
          exact h.progress j d hd
      · rw [hkeys]
        rcases List.mem_append.mp hentry with hentry | hentry
        · exact h.keyed entry hentry
        · obtain ⟨r, hr, rfl⟩ := List.mem_map.mp hentry
          rw [List.getElem?_map, he, hnew r hr]
          rfl

theorem State.kept_init : State.init.Kept where
  progress _ _ he := by simp [State.init] at he
  keyed _ hentry := absurd hentry List.not_mem_nil

theorem run_kept {h : List (State × Event)} {s : State} (hr : server.Run .init h s) : s.Kept :=
  hr.invariant (fun _ _ _ hk hs => hk.step hs) State.kept_init

/-! ### Ids -/

/-- What was drawn, if a request was accepted. -/
def Event.draw? : Event → Option (Option (Block 8))
  | .accept _ draw => some draw
  | .step _ => none

/-- What was drawn in a run, in order. -/
def draws (h : List (State × Event)) : List (Option (Block 8)) :=
  (h.filterMap fun p => p.2.draw?).reverse

theorem newRequestID_injective {d d' : Option (Block 8)} (h : newRequestID d = newRequestID d') :
    d = d' := by
  have hlen : ∀ buf : Block 8, (Hex.encode buf.1).length = 16 := fun buf => by
    rw [(Hex.spells_encode buf.1).length, buf.2]
  have hunknown : ∀ buf : Block 8, Hex.encode buf.1 ≠ utf8 "unknown" := fun buf heq => by
    have hseven := hlen buf
    rw [heq] at hseven
    exact absurd hseven (by decide)
  cases d with
  | none =>
      cases d' with
      | none => rfl
      | some buf' => exact absurd h.symm (hunknown buf')
  | some buf =>
      cases d' with
      | none => exact absurd h (hunknown buf)
      | some buf' => exact congrArg some (Subtype.ext (Hex.encode_injective h))

/-- The requests have the ids that were drawn for them. -/
theorem run_ids {h : List (State × Event)} {s : State} (hr : server.Run .init h s) :
    s.exchanges.map (·.requestID) = (draws h).map newRequestID := by
  induction hr with
  | refl => rfl
  | @step h t u a hr hs ih =>
      cases a with
      | accept r draw =>
          obtain rfl := Option.some.inj hs
          have hdraws : draws ((t, .accept r draw) :: h) = draws h ++ [draw] := by
            simp [draws, Event.draw?]
          show (t.exchanges ++ [Exchange.start r draw]).map Exchange.requestID = _
          rw [hdraws, List.map_append, ih, List.map_append]
          rfl
      | step i =>
          obtain ⟨e, he, hs⟩ := Option.bind_eq_some_iff.mp hs
          obtain ⟨⟨e', new⟩, hstep, rfl⟩ := Option.map_eq_some_iff.mp hs
          obtain ⟨-, hid, -⟩ := ((run_kept hr).progress i e he).step hstep
          have hdraws : draws ((t, .step i) :: h) = draws h := by
            simp [draws, Event.draw?]
          obtain ⟨l₁, l₂, hl, hset⟩ := set_split he
          rw [hdraws, ← ih, hset, hl]
          simp [hid]

/-- The lines with the given id. -/
def State.find (s : State) (requestID : Bytes) : List LogRecord :=
  s.log.filter fun r => r.requestID = requestID

/-- **What the id of a response finds.** In every run, whatever is under way: as long as no
id was drawn twice, the lines with the id of a finished request are its own, in order, and
the last one has the status that was sent. And if every finished request finds its own lines
once all are finished, no id was drawn twice. -/
theorem log_by_id {h : List (State × Event)} {s : State} (hr : server.Run .init h s) :
    ((draws h).Nodup → ∀ e ∈ s.exchanges, e.finished = true → s.find e.requestID = e.lines) ∧
    ((∀ e ∈ s.exchanges, e.finished = true ∧ s.find e.requestID = e.lines) → (draws h).Nodup) := by
  have hkept := run_kept hr
  have hids := run_ids hr
  have hinj : Function.Injective newRequestID := fun _ _ => newRequestID_injective
  have hkey : ∀ (i : ℕ) (e : Exchange), s.exchanges[i]? = some e →
      (s.exchanges.map (·.requestID))[i]? = some e.requestID := by
    intro i e he
    rw [List.getElem?_map, he]
    rfl
  refine ⟨fun hnodup e hmem hfin => ?_, fun hall => ?_⟩
  · obtain ⟨i, he⟩ := List.mem_iff_getElem?.mp hmem
    have hkeys : (s.exchanges.map (·.requestID)).Nodup := hids ▸ hnodup.map hinj
    rw [← (hkept.progress i e he).lines hfin]
    exact withKey_eq hkept.keyed hkeys (hkey i e he)
  · have hwritten : ∀ i e, s.exchanges[i]? = some e → ofWriter s.journal i = e.lines :=
      fun i e he => (hkept.progress i e he).lines (hall e (List.mem_of_getElem? he)).1
    have hkeys : (s.exchanges.map (·.requestID)).Nodup := by
      refine nodup_of_withKey hkept.keyed (fun i hi => ?_) fun i k hk => ?_
      · rw [List.length_map] at hi
        rw [hwritten i _ (List.getElem?_eq_getElem hi)]
        simp [Exchange.lines]
      · rw [List.getElem?_map, Option.map_eq_some_iff] at hk
        obtain ⟨e, he, rfl⟩ := hk
        rw [hwritten i e he]
        exact (hall e (List.mem_of_getElem? he)).2
    exact List.Nodup.of_map newRequestID (hids ▸ hkeys)

/-- Two requests whose steps cross. -/
def crossedRequests : List Event :=
  [.accept ⟨utf8 "POST", ⟨[], [], utf8 "/v1/messages", [], false, []⟩⟩
      (some ⟨[1, 2, 3, 4, 5, 6, 7, 8], rfl⟩),
   .accept ⟨utf8 "GET", ⟨[], [], utf8 "/v1/models", [], false, []⟩⟩
      (some ⟨[8, 7, 6, 5, 4, 3, 2, 1], rfl⟩),
   .step 1, .step 0, .step 1, .step 0, .step 1, .step 0, .step 0]

theorem crossedRequests_found :
    ∃ h s, server.Run .init h s ∧ ∃ e ∈ s.exchanges, e.requestID = utf8 "0102030405060708" ∧
      s.log.length = 3 ∧ s.find e.requestID = e.lines := by
  obtain ⟨h, s, hr, hp⟩ := exists_run_of_exec server crossedRequests
    (fun h s => decide ((draws h).Nodup ∧ s.log.length = 3 ∧ ∃ e ∈ s.exchanges,
      e.requestID = utf8 "0102030405060708" ∧ e.finished = true)) (by decide +kernel)
  obtain ⟨hnodup, hlen, e, hmem, hid, hfin⟩ := of_decide_eq_true hp
  exact ⟨h, s, hr, e, hmem, hid, hlen, (log_by_id hr).1 hnodup e hmem hfin⟩

end LoopzToken.Gateway
