import LoopzToken.Lib.GoMarshal
import LoopzToken.Lib.Reader
import LoopzToken.Lib.Response
import LoopzToken.Billing.Contract
import LoopzToken.Billing.Routes

/-!
# LoopzToken.Billing.Server

The billing server from the request to the answer. A request is routed, its body is read
up to one byte more than the limit, and the answer is written in one go.

The extra byte is what tells a body that is too large from one that ends at the limit:
a body is taken for a request only if all of it was received (`decodeBody_eq_ok_iff`),
which cannot be said of the answers that the client reads.
-/

namespace LoopzToken.Billing

open Lib GoJson

/-! ### Answers -/

/-- A `map[string]string` with one entry. -/
def entry (key value : Bytes) : Value := .struct [(key, .string value)]

/-- `writeJSON`. -/
def writeJSON (status : StatusCode) (v : Value) : List ResponseCall :=
  [.writeHeader status, .write (encode v)]

/-- `http.StatusBadRequest`. -/
def statusBadRequest : StatusCode := ⟨400, by decide⟩

/-- `http.StatusRequestEntityTooLarge`. -/
def statusRequestEntityTooLarge : StatusCode := ⟨413, by decide⟩

/-- An answer that names an error. -/
def writeError (status : StatusCode) (message : Bytes) : List ResponseCall :=
  writeJSON status (entry (utf8 "error") message)

def errBodyTooLarge : Bytes := utf8 "request body too large"

def writeNotImplemented (what : Bytes) : List ResponseCall :=
  writeError StatusCode.notImplemented (what ++ utf8 " not implemented yet (skeleton)")

/-! ### Requests -/

/-- `decode`, on the body as it arrives: the fields, or the answer that was written. -/
def decodeBody (fields : Struct) (body : Reader) :
    Except (List ResponseCall) (List (String × FieldValue)) :=
  match body.readAll (maxRequestBody + 1) with
  | (_, some _) => .error (writeError statusBadRequest (utf8 "read body failed"))
  | (data, none) =>
      if data.length > maxRequestBody then
        .error (writeError statusRequestEntityTooLarge errBodyTooLarge)
      else
        match (JsonParse.parse (runes 0 data)).bind (unmarshal fields) with
        | none => .error (writeError statusBadRequest (utf8 "invalid json"))
        | some values => .ok values

/-- A write handler: the fields of the request are not used yet. -/
def handleWrite (fields : Struct) (what : Bytes) (body : Reader) : List ResponseCall :=
  match decodeBody fields body with
  | .error calls => calls
  | .ok _ => writeNotImplemented what

def handleHealth : List ResponseCall := writeJSON .ok (entry (utf8 "status") (utf8 "ok"))

def handleCreateReservation : Reader → List ResponseCall :=
  handleWrite createReservationRequest (utf8 "reserve")

def handleSettle : Reader → List ResponseCall := handleWrite settleRequest (utf8 "settle")

def handleRelease : Reader → List ResponseCall := handleWrite releaseRequest (utf8 "release")

def handleRecharge : Reader → List ResponseCall := handleWrite rechargeRequest (utf8 "recharge")

def handleRefund : Reader → List ResponseCall := handleWrite refundRequest (utf8 "refund")

def handleGetWallet : List ResponseCall := writeNotImplemented (utf8 "get wallet")

/-- The calls of a handler on its response writer. -/
def runHandler (body : Reader) : Handler → List ResponseCall
  | .handleHealth => handleHealth
  | .handleCreateReservation => handleCreateReservation body
  | .handleSettle => handleSettle body
  | .handleRelease => handleRelease body
  | .handleRecharge => handleRecharge body
  | .handleRefund => handleRefund body
  | .handleGetWallet => handleGetWallet

/-- `Server.ServeHTTP`: what `net/http` answers by itself, or the calls of the handler. -/
def serveHTTP (line : Bytes) (body : Reader) : ServeMux.Response (List ResponseCall) :=
  match ServeMux.serve routes line with
  | .badRequest => .badRequest
  | .redirect path => .redirect path
  | .notFound => .notFound
  | .methodNotAllowed => .methodNotAllowed
  | .handled handler values => .handled (runHandler body handler) values

/-- What the client gets: the status, and the bytes that were written. -/
def answer (calls : List ResponseCall) : StatusCode × Bytes :=
  ((calls.foldl Response.call .new).status, calls.flatMap fun c => match c with
    | .write data => data
    | _ => [])

theorem answer_writeJSON {status : StatusCode} (h : ¬ status.Informational) (v : Value) :
    answer (writeJSON status v) = (status, encode v) := by
  refine Prod.ext ?_ (List.append_nil _)
  rw [answer, Response.status, Response.final_foldl_call]
  simp [Response.new, writeJSON, ResponseCall.commits, h]

/-! ### What arrives -/

/-- The reading fails before the limit is passed. -/
def ReadFails (body : Reader) : Prop :=
  body.failure ≠ none ∧ (body.data.length ≤ maxRequestBody ∨
    (body.data.length = maxRequestBody + 1 ∧ body.endsAbruptly = true))

instance (body : Reader) : Decidable (ReadFails body) := inferInstanceAs (Decidable (_ ∧ _))

/-- Whether the reading fails is told by the bytes and the end of the body. -/
theorem readAll_limit (body : Reader) : body.readAll (maxRequestBody + 1) =
    (body.data.take (maxRequestBody + 1), if ReadFails body then body.failure else none) := by
  refine Prod.ext (Reader.readAll_fst ..) ?_
  have hnone : ¬ body.failure ≠ none → none = body.failure := fun h => (not_not.mp h).symm
  rcases Nat.lt_trichotomy body.data.length (maxRequestBody + 1) with hlt | heq | hgt
  · rw [Reader.readAll_snd_of_lt hlt]
    dsimp only
    split
    · rfl
    · rename_i h
      exact (hnone fun hne => h ⟨hne, .inl (by omega)⟩).symm
  · rw [Reader.readAll_snd_of_eq heq]
    cases hends : body.endsAbruptly with
    | true =>
        dsimp only
        rw [if_pos rfl]
        split
        · rfl
        · rename_i h
          exact (hnone fun hne => h ⟨hne, .inr ⟨heq, hends⟩⟩).symm
    | false =>
        have hno : ¬ ReadFails body := by
          rintro ⟨-, hle | ⟨-, h⟩⟩
          · omega
          · simp [hends] at h
        simp [hno]
  · have hno : ¬ ReadFails body := by
      rintro ⟨-, hle | ⟨heq, -⟩⟩ <;> omega
    rw [Reader.readAll_snd_of_gt hgt]
    exact (if_neg hno).symm

/-- `decode`, by what the body is, however it arrives. -/
theorem decodeBody_eq (fields : Struct) (body : Reader) :
    decodeBody fields body =
      if ReadFails body then .error (writeError statusBadRequest (utf8 "read body failed"))
      else if maxRequestBody < body.data.length then
        .error (writeError statusRequestEntityTooLarge errBodyTooLarge)
      else
        match (JsonParse.parse (runes 0 body.data)).bind (unmarshal fields) with
        | none => .error (writeError statusBadRequest (utf8 "invalid json"))
        | some values => .ok values := by
  rw [decodeBody, readAll_limit]
  by_cases hfails : ReadFails body
  · obtain ⟨err, herr⟩ := Option.ne_none_iff_exists'.mp hfails.1
    rw [if_pos hfails, if_pos hfails, herr]
  · rw [if_neg hfails, if_neg hfails]
    dsimp only
    rw [List.length_take]
    by_cases hlarge : maxRequestBody < body.data.length
    · rw [if_pos (by omega), if_pos hlarge]
    · rw [if_neg (by omega), if_neg hlarge, List.take_of_length_le (by omega)]

/-- **A request is a complete body**: it was received without an error, keeps the limit,
and decodes. -/
theorem decodeBody_eq_ok_iff {fields : Struct} {body : Reader}
    {values : List (String × FieldValue)} :
    decodeBody fields body = .ok values ↔
      body.failure = none ∧ body.data.length ≤ maxRequestBody ∧
        (JsonParse.parse (runes 0 body.data)).bind (unmarshal fields) = some values := by
  rw [decodeBody_eq]
  by_cases hfails : ReadFails body
  · simp [hfails, hfails.1]
  · rw [if_neg hfails]
    by_cases hlarge : maxRequestBody < body.data.length
    · simp [hlarge, Nat.not_le.mpr hlarge]
    · have hnone : body.failure = none := by
        by_contra hne
        exact hfails ⟨hne, .inl (Nat.le_of_not_lt hlarge)⟩
      rw [if_neg hlarge]
      simp only [hnone, Nat.le_of_not_lt hlarge, true_and]
      cases (JsonParse.parse (runes 0 body.data)).bind (unmarshal fields) <;> simp

/-- On a well-encoded text, the whole of which arrives, it is `decode`. -/
theorem decodeBody_text {fields : Struct} {body : Reader} {cs : List Char}
    (htext : Spells body.data cs) (hall : body.failure = none)
    (values : List (String × FieldValue)) :
    decodeBody fields body = .ok values ↔ decode fields cs = .ok values := by
  have hsize : byteLength cs = body.data.length := htext.size
  rw [decodeBody_eq_ok_iff, htext.runes, decode, hsize]
  by_cases hlarge : maxRequestBody < body.data.length
  · simp [hlarge, Nat.not_le.mpr hlarge]
  · rw [if_neg hlarge]
    simp only [hall, Nat.le_of_not_lt hlarge, true_and]
    cases (JsonParse.parse cs).bind (unmarshal fields) <;> simp

/-! ### The handlers that write -/

def Endpoint.handler : Endpoint → Handler
  | .reservations => .handleCreateReservation
  | .settle => .handleSettle
  | .release => .handleRelease
  | .recharges => .handleRecharge
  | .refunds => .handleRefund

/-- How the handler calls what it does not do yet. -/
def Endpoint.what : Endpoint → Bytes
  | .reservations => utf8 "reserve"
  | .settle => utf8 "settle"
  | .release => utf8 "release"
  | .recharges => utf8 "recharge"
  | .refunds => utf8 "refund"

theorem runHandler_endpoint (e : Endpoint) (body : Reader) :
    runHandler body e.handler = handleWrite e.request e.what body := by
  cases e <;> rfl

/-- The bytes are one document that decodes into the struct. -/
def Decodes (fields : Struct) (data : Bytes) : Prop :=
  ((JsonParse.parse (runes 0 data)).bind (unmarshal fields)).isSome = true

instance (fields : Struct) (data : Bytes) : Decidable (Decodes fields data) :=
  inferInstanceAs (Decidable (_ = true))

/-- The four ways a write request goes. -/
theorem handleWrite_eq (fields : Struct) (what : Bytes) (body : Reader) :
    handleWrite fields what body =
      if ReadFails body then writeError statusBadRequest (utf8 "read body failed")
      else if maxRequestBody < body.data.length then
        writeError statusRequestEntityTooLarge errBodyTooLarge
      else if Decodes fields body.data then writeNotImplemented what
      else writeError statusBadRequest (utf8 "invalid json") := by
  rw [handleWrite, decodeBody_eq]
  by_cases hfails : ReadFails body
  · rw [if_pos hfails, if_pos hfails]
  by_cases hlarge : maxRequestBody < body.data.length
  · rw [if_neg hfails, if_neg hfails, if_pos hlarge, if_pos hlarge]
  rw [if_neg hfails, if_neg hfails, if_neg hlarge, if_neg hlarge]
  by_cases hdec : Decodes fields body.data
  · obtain ⟨values, hvalues⟩ := Option.isSome_iff_exists.mp hdec
    rw [if_pos hdec, hvalues]
  · rw [if_neg hdec, Option.not_isSome_iff_eq_none.mp hdec]

theorem answer_writeError {status : StatusCode} (h : ¬ status.Informational) (message : Bytes) :
    answer (writeError status message) = (status, encode (entry (utf8 "error") message)) :=
  answer_writeJSON h _

/-- **What a write request is answered.** One error document in every case: 501 for
exactly the requests that arrive whole, keep the limit and decode, 413 for exactly those
that are too large, and 400 for all others. This is what the handler writes; the
`WriteTimeout` of the server may keep it from the client. -/
theorem write_answer (e : Endpoint) (body : Reader) :
    ∃ status message, answer (runHandler body e.handler) =
        (status, encode (entry (utf8 "error") message)) ∧
      (status = StatusCode.notImplemented ↔ body.failure = none ∧
        body.data.length ≤ maxRequestBody ∧ Decodes e.request body.data) ∧
      (status = statusRequestEntityTooLarge ↔
        maxRequestBody < body.data.length ∧ ¬ ReadFails body) ∧
      (status = statusBadRequest ↔ ReadFails body ∨ (body.failure = none ∧
        body.data.length ≤ maxRequestBody ∧ ¬ Decodes e.request body.data)) := by
  have hbl : statusBadRequest ≠ statusRequestEntityTooLarge := by decide
  have hbn : statusBadRequest ≠ StatusCode.notImplemented := by decide
  have hln : statusRequestEntityTooLarge ≠ StatusCode.notImplemented := by decide
  rw [runHandler_endpoint, handleWrite_eq]
  by_cases hfails : ReadFails body
  · rw [if_pos hfails]
    refine ⟨_, _, answer_writeError (by decide) _, ?_⟩
    simp [hfails, hfails.1, hbl, hbn]
  rw [if_neg hfails]
  by_cases hlarge : maxRequestBody < body.data.length
  · rw [if_pos hlarge]
    refine ⟨_, _, answer_writeError (by decide) _, ?_⟩
    simp [hfails, hlarge, hln, hbl.symm, Nat.not_le.mpr hlarge]
  have hle := Nat.le_of_not_lt hlarge
  have hnone : body.failure = none := by
    by_contra hne
    exact hfails ⟨hne, .inl hle⟩
  rw [if_neg hlarge]
  by_cases hdec : Decodes e.request body.data
  · rw [if_pos hdec]
    refine ⟨_, _, answer_writeError (by decide) _, ?_⟩
    simp [hfails, hlarge, hle, hnone, hdec, hln.symm, hbn.symm]
  · rw [if_neg hdec]
    refine ⟨_, _, answer_writeError (by decide) _, ?_⟩
    simp [hfails, hlarge, hle, hnone, hdec, hbl, hbn]

end LoopzToken.Billing
