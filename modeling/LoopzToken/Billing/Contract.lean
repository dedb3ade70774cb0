import Mathlib.Algebra.Ring.Nat
import LoopzToken.Lib.GoJson
import LoopzToken.Lib.Zod

/-!
# LoopzToken.Billing.Contract

The request bodies of the five write endpoints, as the billing server decodes them
and as the schemas of the contract package parse them.

The server only decodes: it checks no field, and `encoding/json` is lenient. What the
contract asks of a body is written out in `Endpoint.Rules` (`valid_iff_rules`). The
two sides agree on a body exactly when `Accord` holds of it (`decode_agrees_iff`);
on the empty object they do not.
-/

namespace LoopzToken.Billing

open Lib JsonParse GoJson Zod

/-! ### The server's structs -/

def createReservationRequest : Struct :=
  [⟨"idempotencyKey", .string⟩, ⟨"userId", .string⟩, ⟨"apiKeyId", .string⟩,
   ⟨"requestId", .string⟩, ⟨"amountMicros", .string⟩]

def settleRequest : Struct :=
  [⟨"idempotencyKey", .string⟩, ⟨"amountMicros", .string⟩, ⟨"priceVersionId", .string⟩,
   ⟨"usageSource", .string⟩, ⟨"parserVersion", .string⟩, ⟨"estimated", .bool⟩]

def releaseRequest : Struct :=
  [⟨"idempotencyKey", .string⟩, ⟨"reason", .string⟩]

def rechargeRequest : Struct :=
  [⟨"idempotencyKey", .string⟩, ⟨"userId", .string⟩, ⟨"orderId", .string⟩,
   ⟨"channel", .string⟩, ⟨"amountMicros", .string⟩]

def refundRequest : Struct :=
  [⟨"idempotencyKey", .string⟩, ⟨"userId", .string⟩, ⟨"refundId", .string⟩,
   ⟨"amountMicros", .string⟩, ⟨"reason", .string⟩]

/-! ### The contract's schemas -/

/-- A decimal amount in millionths. -/
def micros : Schema := .string [.digits]

def createReservationRequestSchema : ObjectSchema :=
  [("idempotencyKey", .string [.min 1]), ("userId", .string []), ("apiKeyId", .string []),
   ("requestId", .string []), ("amountMicros", micros)]

def settleReservationRequestSchema : ObjectSchema :=
  [("idempotencyKey", .string [.min 1]), ("amountMicros", micros),
   ("priceVersionId", .string []),
   ("usageSource",
     .enum ["provider_bill", "final_usage_field", "stream_accumulated", "local_estimate"]),
   ("parserVersion", .string []), ("estimated", .boolean)]

def releaseReservationRequestSchema : ObjectSchema :=
  [("idempotencyKey", .string [.min 1]), ("reason", .string [])]

def createRechargeRequestSchema : ObjectSchema :=
  [("idempotencyKey", .string [.min 1]), ("userId", .string []), ("orderId", .string []),
   ("channel", .enum ["mock", "wechat", "alipay"]), ("amountMicros", micros)]

def createRefundRequestSchema : ObjectSchema :=
  [("idempotencyKey", .string [.min 1]), ("userId", .string []), ("refundId", .string []),
   ("amountMicros", micros), ("reason", .string [])]

/-! ### Endpoints -/

/-- The write endpoints. -/
inductive Endpoint
  | reservations
  | settle
  | release
  | recharges
  | refunds
  deriving DecidableEq, Repr

def Endpoint.request : Endpoint → Struct
  | .reservations => createReservationRequest
  | .settle => settleRequest
  | .release => releaseRequest
  | .recharges => rechargeRequest
  | .refunds => refundRequest

def Endpoint.schema : Endpoint → ObjectSchema
  | .reservations => createReservationRequestSchema
  | .settle => settleReservationRequestSchema
  | .release => releaseReservationRequestSchema
  | .recharges => createRechargeRequestSchema
  | .refunds => createRefundRequestSchema

/-- `maxRequestBody`, 1 MiB. -/
def maxRequestBody : ℕ := 1 <<< 20

/-- The length of a text in bytes. -/
def byteLength (body : List Char) : ℕ := (body.map Char.utf8Size).sum

/-- `decode`, on a body that could be read: the fields, or the status and the error
that are written. -/
def decode (fields : Struct) (body : List Char) :
    Except (ℕ × String) (List (String × FieldValue)) :=
  if maxRequestBody < byteLength body then .error (413, "request body too large")
  else
    match (JsonParse.parse body).bind (unmarshal fields) with
    | none => .error (400, "invalid json")
    | some values => .ok values

/-- `schema.parse(JSON.parse(body))`. -/
def parseBody (schema : ObjectSchema) (body : List Char) :
    Option (List (String × FieldValue)) :=
  (JsonParse.parse body).bind schema.parse

/-- The server and the contract accept the body with the same values, or both refuse
it. -/
def Agrees (e : Endpoint) (body : List Char) : Prop :=
  ∀ values, decode e.request body = .ok values ↔ parseBody e.schema body = some values

/-! ### When they agree -/

/-- For every field, the last member that names it up to case and is not `null` says,
in well-formed text, what the last member with the exact key says. -/
def SameReading (fields : Struct) (members : List (JsonText × Json)) : Prop :=
  ∀ f ∈ fields, (f.last members).map wellFormed = property f.name members

/-- The bodies on which the server and the contract agree: texts that are no JSON,
documents other than `null` and objects, objects that break a rule of each side, and
objects that keep all rules and name every field in one way. -/
def Accord (e : Endpoint) (body : List Char) : Prop :=
  match JsonParse.parse body with
  | some .null => False
  | some (.object members) =>
      (¬ Decodable e.request members ∧ ¬ e.schema.Valid members) ∨
        (Decodable e.request members ∧ e.schema.Valid members ∧ SameReading e.request members)
  | _ => True

/-! ### The rules of the contract -/

/-- The property is there, as a text that keeps `P`. -/
def HasText (members : List (JsonText × Json)) (key : String) (P : JsonText → Prop) : Prop :=
  ∃ text, property key members = some (.string text) ∧ P text

/-- One ASCII digit or more. -/
def Digits (text : JsonText) : Prop := text ≠ [] ∧ ∀ u ∈ text, 48 ≤ u.toNat ∧ u.toNat ≤ 57

/-- What the contract asks of the members of a body, written out. -/
def Endpoint.Rules (members : List (JsonText × Json)) : Endpoint → Prop
  | .reservations => HasText members "idempotencyKey" (· ≠ []) ∧
      HasText members "userId" (fun _ => True) ∧ HasText members "apiKeyId" (fun _ => True) ∧
      HasText members "requestId" (fun _ => True) ∧ HasText members "amountMicros" Digits
  | .settle => HasText members "idempotencyKey" (· ≠ []) ∧
      HasText members "amountMicros" Digits ∧ HasText members "priceVersionId" (fun _ => True) ∧
      HasText members "usageSource" (· ∈ [utf16 "provider_bill", utf16 "final_usage_field",
        utf16 "stream_accumulated", utf16 "local_estimate"]) ∧
      HasText members "parserVersion" (fun _ => True) ∧
      ∃ b, property "estimated" members = some (.bool b)
  | .release => HasText members "idempotencyKey" (· ≠ []) ∧
      HasText members "reason" (fun _ => True)
  | .recharges => HasText members "idempotencyKey" (· ≠ []) ∧
      HasText members "userId" (fun _ => True) ∧ HasText members "orderId" (fun _ => True) ∧
      HasText members "channel" (· ∈ [utf16 "mock", utf16 "wechat", utf16 "alipay"]) ∧
      HasText members "amountMicros" Digits
  | .refunds => HasText members "idempotencyKey" (· ≠ []) ∧
      HasText members "userId" (fun _ => True) ∧ HasText members "refundId" (fun _ => True) ∧
      HasText members "amountMicros" Digits ∧ HasText members "reason" (fun _ => True)

/-- **What a valid body is**, for each of the five schemas. -/
theorem Endpoint.valid_iff_rules (e : Endpoint) (members : List (JsonText × Json)) :
    e.schema.Valid members ↔ e.Rules members := by
  have hkey : ∀ text, Check.passes (.min 1) text = true ↔ text ≠ [] := fun text => by
    rw [Check.passes, decide_eq_true_eq, Nat.one_le_iff_ne_zero, ne_eq, List.length_eq_zero_iff]
  cases e <;>
    simp only [Endpoint.schema, Endpoint.Rules, ObjectSchema.Valid, HasText, Digits,
      createReservationRequestSchema, settleReservationRequestSchema,
      releaseReservationRequestSchema, createRechargeRequestSchema, createRefundRequestSchema,
      micros, List.forall_mem_cons, List.not_mem_nil, false_implies, implies_true, and_true,
      Schema.string_isSome, Schema.enum_isSome, Schema.boolean_isSome, Check.digits_passes, hkey,
      List.map_cons, List.map_nil]

/-! ### One property -/

/-- The Go type that holds what a schema returns. -/
def schemaKind : Schema → Kind
  | .string _ => .string
  | .enum _ => .string
  | .boolean => .bool

/-- The structs have the properties of the schemas, in the same order. -/
theorem Endpoint.request_eq (e : Endpoint) :
    e.request = e.schema.map fun p => ⟨p.1, schemaKind p.2⟩ := by
  cases e <;> rfl

/-- A property that passes is a document of the field's type, taken as it is. -/
theorem parse_eq_some {s : Schema} {doc : Option Json} {v : FieldValue}
    (h : s.parse doc = some v) : ∃ d, doc = some d ∧ (schemaKind s).fits d = true ∧
      isNull d = false ∧ v = valueOf (schemaKind s) d := by
  unfold Schema.parse at h
  split at h
  · split at h
    · exact ⟨_, rfl, rfl, rfl, (Option.some.inj h).symm⟩
    · cases h
  · split at h
    · exact ⟨_, rfl, rfl, rfl, (Option.some.inj h).symm⟩
    · cases h
  · exact ⟨_, rfl, rfl, rfl, (Option.some.inj h).symm⟩
  · cases h

/-- A property that passes has the value of the decoded field exactly when both read
the same. -/
theorem parse_eq_read {key : String} {s : Schema} {members : List (JsonText × Json)}
    (ht : (⟨key, schemaKind s⟩ : Field).Typed members)
    (hv : (s.parse (property key members)).isSome = true) :
    s.parse (property key members) = some ((⟨key, schemaKind s⟩ : Field).read members) ↔
      ((⟨key, schemaKind s⟩ : Field).last members).map wellFormed = property key members := by
  generalize hf : (⟨key, schemaKind s⟩ : Field) = f at *
  obtain ⟨v, hv⟩ := Option.isSome_iff_exists.mp hv
  obtain ⟨d, hd, hfit, hnull, rfl⟩ := parse_eq_some hv
  obtain ⟨m, hm, rfl⟩ := Option.map_eq_some_iff.mp hd
  obtain ⟨hmem, hkey⟩ := List.mem_filter.mp (List.mem_of_getLast? hm)
  have hname : f.names m.1 = true := by
    rw [of_decide_eq_true hkey, ← hf]
    exact decide_eq_true rfl
  obtain ⟨d', hd'⟩ := f.exists_last hmem hname hnull
  obtain ⟨hfit', hnull'⟩ := f.last_fits ht hd'
  have hk : schemaKind s = f.kind := by rw [← hf]
  rw [hv, hd, Field.read, hd', Option.map_some, Option.map_some, Option.getD_some,
    Option.some_inj, Option.some_inj, hk]
  exact (valueOf_inj (hk ▸ hfit) hnull ((fits_wellFormed _ d').trans hfit')
    ((isNull_wellFormed d').trans hnull')).trans eq_comm

/-! ### Whole bodies -/

variable {e : Endpoint} {body : List Char} {members : List (JsonText × Json)}

theorem decode_eq_ok (hsize : byteLength body ≤ maxRequestBody)
    {values : List (String × FieldValue)} :
    decode e.request body = .ok values ↔
      (JsonParse.parse body).bind (unmarshal e.request) = some values := by
  rw [decode, if_neg (Nat.not_lt.mpr hsize)]
  cases (JsonParse.parse body).bind (unmarshal e.request) <;> simp

/-- The contract reads a valid object as the server does, exactly when every field
reads the same. -/
theorem parse_eq_readFields (hd : Decodable e.request members) (hv : e.schema.Valid members) :
    e.schema.parse (.object members) = some (readFields e.request members) ↔
      SameReading e.request members := by
  have ht := hd.2
  rw [Endpoint.request_eq] at ht ⊢
  simp only [ObjectSchema.parse, mapM_eq_some_iff, readFields, SameReading, List.map_map,
    List.map_inj_left, List.forall_mem_map] at ht ⊢
  refine forall₂_congr fun p hp => ?_
  rw [Function.comp_apply, Function.comp_apply, ← parse_eq_read (ht p hp) (hv p hp)]
  simp

/-- On an object: both accept or both refuse, and if both accept they read the same. -/
theorem agrees_object (hsize : byteLength body ≤ maxRequestBody)
    (hbody : JsonParse.parse body = some (.object members)) :
    Agrees e body ↔ (¬ Decodable e.request members ∧ ¬ e.schema.Valid members) ∨
      (Decodable e.request members ∧ e.schema.Valid members ∧
        SameReading e.request members) := by
  have hdecode : ∀ values, decode e.request body = .ok values ↔
      Decodable e.request members ∧ values = readFields e.request members := by
    intro values
    rw [decode_eq_ok hsize, hbody, Option.bind_some, unmarshal_object]
    by_cases hd : Decodable e.request members
    · rw [if_pos hd]
      simp [hd, readFields, eq_comm]
    · rw [if_neg hd]
      simp [hd]
  have hparse : ∀ values, parseBody e.schema body = some values ↔
      e.schema.parse (.object members) = some values := fun values => by
    rw [parseBody, hbody, Option.bind_some]
  simp only [Agrees, hdecode, hparse]
  constructor
  · intro h
    by_cases hd : Decodable e.request members
    · -- what the server decodes, the contract reads the same
      have hread := (h _).mp ⟨hd, rfl⟩
      have hv : e.schema.Valid members := ObjectSchema.parse_isSome.mp ⟨_, hread⟩
      exact .inr ⟨hd, hv, (parse_eq_readFields hd hv).mp hread⟩
    · refine .inl ⟨hd, fun hv => ?_⟩
      obtain ⟨values, hval⟩ := ObjectSchema.parse_isSome.mpr hv
      exact hd ((h values).mpr hval).1
  · rintro (⟨hd, hv⟩ | ⟨hd, hv, hsame⟩) values
    · exact ⟨fun h => absurd h.1 hd, fun h => absurd (ObjectSchema.parse_isSome.mp ⟨_, h⟩) hv⟩
    · have hread := (parse_eq_readFields hd hv).mpr hsame
      constructor
      · intro h
        obtain ⟨-, rfl⟩ := h
        exact hread
      · intro hval
        exact ⟨hd, Option.some.inj (hval.symm.trans hread)⟩

/-- **When the server and the contract agree**, for every body of at most 1 MiB and
every write endpoint. -/
theorem decode_agrees_iff (e : Endpoint) {body : List Char}
    (hsize : byteLength body ≤ maxRequestBody) : Agrees e body ↔ Accord e body := by
  have hrefuse : ∀ doc, JsonParse.parse body = some doc → unmarshal e.request doc = none →
      e.schema.parse doc = none → Agrees e body := by
    intro doc hbody hgo hzod values
    rw [decode_eq_ok hsize, parseBody, hbody, Option.bind_some, Option.bind_some, hgo, hzod]
  cases hbody : JsonParse.parse body with
  | none =>
      simp only [Accord, hbody, iff_true]
      intro values
      rw [decode_eq_ok hsize, parseBody, hbody]
      rfl
  | some doc =>
      cases doc with
      | object members =>
          simp only [Accord, hbody]
          exact agrees_object hsize hbody
      | null =>
          simp only [Accord, hbody, iff_false]
          intro h
          have hnull := (h (e.request.map fun f => (f.name, f.kind.zero))).mp
            ((decode_eq_ok hsize).mpr (by rw [hbody]; rfl))
          rw [parseBody, hbody] at hnull
          cases hnull
      | bool | number | string | array =>
          simp only [Accord, hbody, iff_true]
          refine hrefuse _ hbody ?_ rfl
          unfold unmarshal
          split <;> rfl

/-- A release, as the gateway sends it. -/
def releaseBody : List Char := "\x7b\"idempotencyKey\":\"k1\",\"reason\":\"timeout\"\x7d".toList

theorem releaseBody_agrees :
    byteLength releaseBody ≤ maxRequestBody ∧
      (parseBody Endpoint.release.schema releaseBody).isSome = true ∧
      (Agrees .release releaseBody ↔ Accord .release releaseBody) :=
  ⟨by decide +kernel, by decide +kernel, decode_agrees_iff .release (by decide +kernel)⟩

/-- The empty object. -/
def emptyBody : List Char := "\x7b\x7d".toList

/-- The server takes the empty object for a settlement with an empty idempotency key
and an empty amount; the contract refuses it. -/
theorem emptyBody_disagrees :
    decode settleRequest emptyBody = .ok (settleRequest.map fun f => (f.name, f.kind.zero)) ∧
      parseBody settleReservationRequestSchema emptyBody = none ∧
      ¬ Agrees .settle emptyBody := by
  have hgo : decode settleRequest emptyBody =
      .ok (settleRequest.map fun f => (f.name, f.kind.zero)) := by
    decide +kernel
  have hzod : parseBody settleReservationRequestSchema emptyBody = none := by decide +kernel
  refine ⟨hgo, hzod, fun h => ?_⟩
  have := (h _).mp hgo
  rw [show Endpoint.settle.schema = settleReservationRequestSchema from rfl, hzod] at this
  cases this

end LoopzToken.Billing
