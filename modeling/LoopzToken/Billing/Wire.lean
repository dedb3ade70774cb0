import LoopzToken.Lib.GoRecord
import LoopzToken.Billing.Answer
import LoopzToken.Billing.Server

/-!
# LoopzToken.Billing.Wire

The calls of the gateway's billing client, from the request struct to the error that is
returned.

What the client marshals is read by the server with the same values, whatever bytes the
strings hold (`decodeBody_call`), and by the contract's schema with the same values again,
if the call keeps the contract's rules (`parseBody_call`). As the handlers are now,
every call ends with an error that quotes the server's answer (`call_answered`). The
limits of the `http.Server` and the timeout of the client are not modelled.
-/

namespace LoopzToken.Billing

open Lib GoJson JsonParse

/-! ### The client's structs -/

structure ReservationRequest where
  idempotencyKey : Bytes
  userID : Bytes
  apiKeyID : Bytes
  requestID : Bytes
  amountMicros : Bytes

structure SettleRequest where
  idempotencyKey : Bytes
  amountMicros : Bytes
  priceVersionID : Bytes
  usageSource : Bytes
  parserVersion : Bytes
  estimated : Bool

structure ReleaseRequest where
  idempotencyKey : Bytes
  reason : Bytes

def ReservationRequest.record (req : ReservationRequest) : Record :=
  [(⟨"idempotencyKey", .string⟩, .string req.idempotencyKey),
   (⟨"userId", .string⟩, .string req.userID),
   (⟨"apiKeyId", .string⟩, .string req.apiKeyID),
   (⟨"requestId", .string⟩, .string req.requestID),
   (⟨"amountMicros", .string⟩, .string req.amountMicros)]

def SettleRequest.record (req : SettleRequest) : Record :=
  [(⟨"idempotencyKey", .string⟩, .string req.idempotencyKey),
   (⟨"amountMicros", .string⟩, .string req.amountMicros),
   (⟨"priceVersionId", .string⟩, .string req.priceVersionID),
   (⟨"usageSource", .string⟩, .string req.usageSource),
   (⟨"parserVersion", .string⟩, .string req.parserVersion),
   (⟨"estimated", .bool⟩, .bool req.estimated)]

def ReleaseRequest.record (req : ReleaseRequest) : Record :=
  [(⟨"idempotencyKey", .string⟩, .string req.idempotencyKey),
   (⟨"reason", .string⟩, .string req.reason)]

/-! ### The calls that carry a request -/

inductive Call
  | createReservation (req : ReservationRequest)
  | settleReservation (reservationID : Bytes) (req : SettleRequest)
  | releaseReservation (reservationID : Bytes) (req : ReleaseRequest)

def Call.record : Call → Record
  | .createReservation req => req.record
  | .settleReservation _ req => req.record
  | .releaseReservation _ req => req.record

/-- The endpoint the call is meant for. -/
def Call.endpoint : Call → Endpoint
  | .createReservation _ => .reservations
  | .settleReservation .. => .settle
  | .releaseReservation .. => .release

/-- The body of the request. -/
def Call.body (call : Call) : Bytes := marshal call.record.value

/-- What the call says, with U+FFFD for bytes that are no UTF-8. -/
def Call.values (call : Call) : List (String × FieldValue) := call.record.values

/-- The client's struct has the tags of the server's, and no two are equal up to case. -/
theorem Call.fields_record (call : Call) : call.record.fields = call.endpoint.request := by
  cases call <;> rfl

theorem Endpoint.request_tags (e : Endpoint) :
    (∀ f ∈ e.request, textOf (utf8 f.name) = utf16 f.name) ∧
      (e.request.map fun f => foldName (utf16 f.name)).Nodup := by
  cases e <;> decide +kernel

theorem Call.record_ok (call : Call) : call.record.Ok := by
  obtain ⟨htags, hdistinct⟩ := call.endpoint.request_tags
  rw [← call.fields_record] at htags hdistinct
  refine ⟨htags, hdistinct, ?_⟩
  cases call with
  | createReservation req => simp [Call.record, ReservationRequest.record, Value.HasKind]
  | settleReservation id req => simp [Call.record, SettleRequest.record, Value.HasKind]
  | releaseReservation id req => simp [Call.record, ReleaseRequest.record, Value.HasKind]

theorem Call.unmarshal_body (call : Call) :
    (parse (runes 0 call.body)).bind (unmarshal call.endpoint.request) = some call.values := by
  rw [Call.body, parse_marshal, Option.bind_some, ← call.fields_record]
  exact unmarshal_record call.record_ok

/-- **The server reads what the client was given.** For every call, and however the body
arrives: the values come through, unless the body is too large. -/
theorem decodeBody_call (call : Call) {body : Reader} (hbody : body.data = call.body)
    (hall : body.failure = none) :
    decodeBody call.endpoint.request body =
      if call.body.length ≤ maxRequestBody then .ok call.values
      else .error (writeError statusRequestEntityTooLarge errBodyTooLarge) := by
  have hread : ¬ ReadFails body := fun h => h.1 hall
  rw [decodeBody_eq, if_neg hread, hbody, call.unmarshal_body]
  split_ifs with hlarge hle
  · omega
  · rfl
  · rfl
  · omega

/-- A release whose reason is markup with a byte that is no UTF-8. -/
def sampleRelease : Call :=
  .releaseReservation (utf8 "res 42") ⟨utf8 "k1", utf8 "<timeout>" ++ [0xFF]⟩

theorem sampleRelease_decoded :
    decodeBody releaseRequest (.more (sampleRelease.body.take 7) (.last (sampleRelease.body.drop 7)
      none)) = .ok [("idempotencyKey", .text (utf16 "k1")),
        ("reason", .text (utf16 "<timeout>\uFFFD"))] := by
  have hdata : Reader.data (.more (sampleRelease.body.take 7)
      (.last (sampleRelease.body.drop 7) none)) = sampleRelease.body := List.take_append_drop ..
  have hvalues : sampleRelease.values = [("idempotencyKey", .text (utf16 "k1")),
      ("reason", .text (utf16 "<timeout>\uFFFD"))] := by
    decide +kernel
  rw [← hvalues]
  exact (decodeBody_call sampleRelease hdata rfl).trans (if_pos (by decide +kernel))

/-! ### The contract -/

/-- The rules of the contract: an idempotency key, amounts in digits, and one of the known
sources of usage. -/
def Call.Meets : Call → Prop
  | .createReservation req =>
      req.idempotencyKey ≠ [] ∧ req.amountMicros ≠ [] ∧
        ∀ b ∈ req.amountMicros, 48 ≤ b.toNat ∧ b.toNat ≤ 57
  | .settleReservation _ req =>
      req.idempotencyKey ≠ [] ∧ (req.amountMicros ≠ [] ∧
        ∀ b ∈ req.amountMicros, 48 ≤ b.toNat ∧ b.toNat ≤ 57) ∧
        req.usageSource ∈ [utf8 "provider_bill", utf8 "final_usage_field",
          utf8 "stream_accumulated", utf8 "local_estimate"]
  | .releaseReservation _ req => req.idempotencyKey ≠ []

theorem textOf_eq_nil {s : Bytes} : textOf s = [] ↔ s = [] :=
  textOf_eq_iff (t := []) (by simp)

theorem min_passes (s : Bytes) : Zod.Check.passes (.min 1) (textOf s) = true ↔ s ≠ [] := by
  rw [Zod.Check.passes, decide_eq_true_eq, Nat.one_le_iff_ne_zero, ne_eq,
    List.length_eq_zero_iff, textOf_eq_nil]

theorem digits_passes (s : Bytes) : Zod.Check.digits.passes (textOf s) = true ↔
    s ≠ [] ∧ ∀ b ∈ s, 48 ≤ b.toNat ∧ b.toNat ≤ 57 := by
  have hunit : ∀ b : UInt8, (UInt16.ofNat b.toNat).toNat = b.toNat := fun b => by
    have := b.toNat_lt
    rw [UInt16.toNat_ofNat', Nat.mod_eq_of_lt (by omega)]
  rw [Zod.Check.digits_passes, ne_eq, textOf_eq_nil]
  refine and_congr_right fun _ => ?_
  constructor
  · intro h b hb
    have hascii := ascii_of_textOf fun u hu => Nat.lt_of_le_of_lt (h u hu).2 (by decide)
    have := h (UInt16.ofNat b.toNat) (textOf_ascii hascii ▸ List.mem_map_of_mem hb)
    rwa [hunit] at this
  · intro h u hu
    have hascii : ∀ b ∈ s, b.toNat < 0x80 := fun b hb => Nat.lt_of_le_of_lt (h b hb).2 (by decide)
    rw [textOf_ascii hascii] at hu
    obtain ⟨b, hb, rfl⟩ := List.mem_map.mp hu
    rw [hunit]
    exact h b hb

/-- A name of an enumeration, as text and as bytes. -/
theorem utf16_eq_textOf {name : String} {s : Bytes} (htext : textOf (utf8 name) = utf16 name)
    (hascii : ((utf8 name).all fun b => b.toNat < 0x80) = true) :
    utf16 name = textOf s ↔ s = utf8 name := by
  rw [← htext, eq_comm]
  exact textOf_eq_iff fun b hb => of_decide_eq_true (List.all_eq_true.mp hascii b hb)

theorem enum_passes {names : List String}
    (hnames : ∀ n ∈ names, textOf (utf8 n) = utf16 n ∧
      ((utf8 n).all fun b => b.toNat < 0x80) = true) (s : Bytes) :
    ((Zod.Schema.enum names).parse (some (.string (textOf s)))).isSome = true ↔
      s ∈ names.map utf8 := by
  rw [Zod.Schema.enum_isSome]
  simp only [Option.some.injEq, Json.string.injEq, exists_eq_left', List.mem_map]
  refine exists_congr fun n => and_congr_right fun hn => ?_
  rw [utf16_eq_textOf (hnames n hn).1 (hnames n hn).2, eq_comm]

theorem string_passes (checks : List Zod.Check) (s : Bytes) :
    ((Zod.Schema.string checks).parse (some (.string (textOf s)))).isSome = true ↔
      ∀ c ∈ checks, c.passes (textOf s) = true := by
  simp [Zod.Schema.string_isSome]

theorem usageSources_ascii :
    ∀ n ∈ ["provider_bill", "final_usage_field", "stream_accumulated", "local_estimate"],
      textOf (utf8 n) = utf16 n ∧ ((utf8 n).all fun b => b.toNat < 0x80) = true := by
  decide +kernel

/-- The schema's rules, one field at a time, are the rules of the contract. -/
theorem Call.passes_iff (call : Call) :
    List.Forall₂ Passes call.endpoint.schema call.record ↔ call.Meets := by
  cases call with
  | createReservation req =>
      simp [Call.endpoint, Endpoint.schema, createReservationRequestSchema, Call.record,
        ReservationRequest.record, Passes, Value.doc, string_passes, min_passes, micros,
        digits_passes, Call.Meets]
  | settleReservation id req =>
      have henum := enum_passes usageSources_ascii req.usageSource
      have hbool : (Zod.Schema.boolean.parse (some (.bool req.estimated))).isSome = true := rfl
      simp [Call.endpoint, Endpoint.schema, settleReservationRequestSchema, Call.record,
        SettleRequest.record, Passes, Value.doc, string_passes, min_passes, micros,
        digits_passes, Call.Meets, henum, hbool]
  | releaseReservation id req =>
      simp [Call.endpoint, Endpoint.schema, releaseReservationRequestSchema, Call.record,
        ReleaseRequest.record, Passes, Value.doc, string_passes, min_passes, Call.Meets]

theorem Call.sameKeys (call : Call) :
    List.Forall₂ SameKey call.endpoint.schema call.record := by
  cases call <;> simp [Call.endpoint, Endpoint.schema, createReservationRequestSchema,
    settleReservationRequestSchema, releaseReservationRequestSchema, Call.record,
    ReservationRequest.record, SettleRequest.record, ReleaseRequest.record, SameKey]

/-- **The contract reads the same, or nothing.** The schema accepts what the client
marshals exactly if the call keeps the contract's rules, and then with the values the
server reads. -/
theorem parseBody_call (call : Call) {values : List (String × FieldValue)} :
    parseBody call.endpoint.schema (runes 0 call.body) = some values ↔
      values = call.values ∧ call.Meets := by
  rw [parseBody, Call.body, parse_marshal, Option.bind_some, doc_value call.record_ok,
    parse_record call.record_ok call.sameKeys, call.passes_iff]
  rfl

/-! ### One call, end to end -/

def Client.createReservation (c : Client) : Option Bytes :=
  c.doRequest (utf8 "POST") (utf8 "/internal/v1/billing/reservations")

/-- The request line of the call. -/
def Call.send (c : Client) : Call → Option Bytes
  | .createReservation _ => c.createReservation
  | .settleReservation reservationID _ => c.settleReservation reservationID
  | .releaseReservation reservationID _ => c.releaseReservation reservationID

/-- The path, as errors quote it. -/
def Call.path : Call → Bytes
  | .createReservation _ => utf8 "/internal/v1/billing/reservations"
  | .settleReservation reservationID _ =>
      utf8 "/internal/v1/billing/reservations/" ++ reservationID ++ utf8 "/settle"
  | .releaseReservation reservationID _ =>
      utf8 "/internal/v1/billing/reservations/" ++ reservationID ++ utf8 "/release"

/-- The id, if the call has one, is not empty and stands for itself in a path. -/
def Call.Plain : Call → Prop
  | .createReservation _ => True
  | .settleReservation reservationID _ => reservationID ≠ [] ∧ PlainId reservationID
  | .releaseReservation reservationID _ => reservationID ≠ [] ∧ PlainId reservationID

/-- A path without an id is routed as it is. -/
theorem serve_doRequest {c : Client} {method p line : Bytes} (hm : (32 : UInt8) ∉ method)
    (hhead : p.head? = some Url.slash)
    (hplain : Url.question ∉ p ∧ Url.hash ∉ p ∧ Percent.percent ∉ p)
    (hesc : Percent.escape Url.shouldEscape p = p) (h : c.doRequest method p = some line) :
    ServeMux.serve routes line = ServeMux.findHandler routes method p := by
  obtain ⟨hq, hh, hp⟩ := hplain
  obtain ⟨u, hu, hline⟩ := Option.bind_eq_some_iff.mp h
  obtain ⟨hpath, -⟩ := Url.parseURL_http c.host_valid hhead hu
  rw [cut_of_not_mem hh, cut_of_not_mem hq] at hpath
  have htext := Url.pathText_escapedPath hpath hhead
  obtain ⟨hreads, -⟩ := Url.withPath_eq_some.mp hpath
  obtain rfl : u.path = p := hreads.unique (.refl hp)
  have hsame : u.escapedPath = u.path := by
    rcases htext.cases with htext | htext
    · exact htext
    · exact htext.trans hesc
  rw [ServeMux.serve_requestLine hm hpath hhead hline, if_neg (by simp), hsame]

theorem findHandler_reservations :
    ServeMux.findHandler routes (utf8 "POST") (utf8 "/internal/v1/billing/reservations") =
      .handled .handleCreateReservation [] := by
  decide +kernel

theorem serve_call {c : Client} {call : Call} {line : Bytes} (hsent : call.send c = some line)
    (hplain : call.Plain) :
    ∃ values, ServeMux.serve routes line = .handled call.endpoint.handler values := by
  cases call with
  | createReservation req =>
      refine ⟨[], ?_⟩
      rw [serve_doRequest (by decide) rfl (by decide +kernel) (by decide +kernel) hsent]
      exact findHandler_reservations
  | settleReservation id req =>
      exact ⟨_, @dispatch_of_plainId c .settle id line hplain.1 hsent hplain.2⟩
  | releaseReservation id req =>
      exact ⟨_, @dispatch_of_plainId c .release id line hplain.1 hsent hplain.2⟩

/-- The answer to a call. -/
def Call.reply (call : Call) : StatusCode × Bytes :=
  if call.body.length ≤ maxRequestBody then
    (StatusCode.notImplemented, call.endpoint.what ++ utf8 " not implemented yet (skeleton)")
  else (statusRequestEntityTooLarge, errBodyTooLarge)

theorem answer_call (call : Call) {body : Reader} (hbody : body.data = call.body)
    (hall : body.failure = none) :
    answer (runHandler body call.endpoint.handler) =
      (call.reply.1, encode (entry (utf8 "error") call.reply.2)) := by
  rw [runHandler_endpoint, handleWrite, decodeBody_call call hbody hall, Call.reply]
  split_ifs with hle
  · exact answer_writeError (by decide) _
  · exact answer_writeError (by decide) _

/-- An answer is far smaller than what the client reads of it. -/
theorem length_reply (call : Call) :
    (encode (entry (utf8 "error") call.reply.2)).length < maxResponseBody := by
  have hlarge : (encode (entry (utf8 "error") errBodyTooLarge)).length < maxResponseBody := by
    decide +kernel
  have hnot : ∀ e : Endpoint, (encode (entry (utf8 "error")
      (e.what ++ utf8 " not implemented yet (skeleton)"))).length < maxResponseBody := by
    intro e
    cases e <;> decide +kernel
  rw [Call.reply]
  split_ifs
  · exact hnot _
  · exact hlarge

/-- **What a billing call comes to.** For every client, call and id that stands for itself:
once the request is sent, and however its body and the answer arrive, the server runs the
handler that the call is meant for, and the call ends with an error that quotes the status
and the answer of this handler. -/
theorem call_answered {β : Type} (T : Target β) {c : Client} {call : Call} {line : Bytes}
    (hsent : call.send c = some line) (hplain : call.Plain)
    {body respBody : Reader} (hbody : body.data = call.body) (hall : body.failure = none)
    (hresp : respBody.data = encode (entry (utf8 "error") call.reply.2))
    (hrespall : respBody.failure = none) (out : Option β) :
    (∃ values, serveHTTP line body =
      .handled (runHandler body call.endpoint.handler) values) ∧
    answer (runHandler body call.endpoint.handler) = (call.reply.1, respBody.data) ∧
    doResponse T (utf8 "POST") call.path ⟨call.reply.1.1, respBody⟩ out =
      (some (.status (statusMessage (utf8 "POST") call.path call.reply.1.1 respBody.data)), out) := by
  have hcut : ¬ HttpResponse.CutOff ⟨call.reply.1.1, respBody⟩ := by
    have hlen := length_reply call
    rw [← hresp] at hlen
    rintro (hlt | ⟨heq, -⟩)
    · exact absurd hlt (Nat.lt_asymm hlen)
    · exact absurd heq (Nat.ne_of_gt hlen)
  have hstatus : call.reply.1.1 < 200 ∨ call.reply.1.1 ≥ 300 := by
    rw [Call.reply]
    split_ifs
    · exact .inr (show 300 ≤ 501 by decide)
    · exact .inr (show 300 ≤ 413 by decide)
  refine ⟨?_, ?_, ?_⟩
  · obtain ⟨values, hserve⟩ := serve_call hsent hplain
    exact ⟨values, by rw [serveHTTP, hserve]⟩
  · rw [answer_call call hbody hall, hresp]
  · rw [doResponse, readAll_of_not_cutOff hcut, hrespall]
    dsimp only
    rw [if_pos hstatus]

/-- What the server writes. -/
def releaseAnswer : Bytes :=
  utf8 "\x7b\"error\":\"release not implemented yet (skeleton)\"\x7d\n"

theorem sampleRelease_answered :
    ∃ line, sampleRelease.send localClient = some line ∧
      (∃ values, serveHTTP line (.last sampleRelease.body none) =
        .handled (handleRelease (.last sampleRelease.body none)) values) ∧
      doResponse anyTarget (utf8 "POST") sampleRelease.path ⟨501, .last releaseAnswer none⟩
          (none : Option (Option Json)) =
        (some (.status (utf8 "billing POST /internal/v1/billing/reservations/res 42/release: " ++
          utf8 "status=501 body=" ++ releaseAnswer)), none) := by
  obtain ⟨line, hline⟩ := Option.isSome_iff_exists.mp
    (show (sampleRelease.send localClient).isSome by decide +kernel)
  have hplain : sampleRelease.Plain := by
    unfold sampleRelease Call.Plain PlainId
    decide +kernel
  have hreply : sampleRelease.reply = (StatusCode.notImplemented,
      utf8 "release not implemented yet (skeleton)") := by
    decide +kernel
  have hbody : releaseAnswer = encode (entry (utf8 "error") sampleRelease.reply.2) := by
    rw [hreply]
    decide +kernel
  obtain ⟨hserve, -, h⟩ := @call_answered _ anyTarget _ _ _ hline hplain
    (.last sampleRelease.body none) (.last releaseAnswer none) rfl rfl hbody rfl none
  rw [hreply] at h
  refine ⟨line, hline, hserve, h.trans ?_⟩
  exact congrArg (fun m => (some (ClientError.status m), none)) (by decide +kernel)

end LoopzToken.Billing
