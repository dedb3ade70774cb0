import LoopzToken.Lib.Redirect
import LoopzToken.Billing.Answer
import LoopzToken.Billing.Server

/-!
# LoopzToken.Billing.Redirect

The calls of the billing client with the redirects that `http.Client` follows. An id with
dot segments takes the path of a call out of the billing API; the server answers with a
301 to the clean path, and the client asks for that with a `GET` and without the body.
The 301 is that of Go 1.24, the version that `go.mod` names; later ones send a 307.

No handler of the billing API answers with a success yet, so a call that is reported as
one was answered by the health check. `reported_iff` says exactly which calls are, and how
they get there.
-/

namespace LoopzToken.Billing

open Lib GoJson Percent Url ServeMux Redirect

/-! ### The last response -/

/-- What is sent for what the multiplexer makes of a request, which is no redirect. -/
def respond : ServeMux.Response Handler × Request Reader → Option (StatusCode × Bytes)
  | (.handled handler _, req) => some (answer (runHandler (req.body.getD .eof) handler))
  | (.badRequest, _) => some (statusBadRequest, utf8 "400 Bad Request")
  | (.notFound, _) => some (answer notFound)
  | (.methodNotAllowed, _) => some (answer methodNotAllowed)
  | (.redirect _, _) => none

/-- `http.Do`, as `Client.do` calls it: the last response, after nine redirects at most. -/
def Client.exchange (c : Client) (method path : Bytes) (body : Option Reader) :
    Option (StatusCode × Bytes) :=
  (parseURL (c.baseURL ++ path)).bind fun u => (follow routes 9 ⟨method, u, body⟩).bind respond

/-! ### Which handlers answer with a success -/

/-- The statuses that `Client.do` takes for a success. -/
def Success (status : StatusCode) : Prop := 200 ≤ status.1 ∧ status.1 < 300

instance (status : StatusCode) : Decidable (Success status) := inferInstanceAs (Decidable (_ ∧ _))

theorem answer_handleHealth :
    answer handleHealth = (.ok, encode (entry (utf8 "status") (utf8 "ok"))) :=
  answer_writeJSON (by decide) _

/-- Only the health check does. -/
theorem success_runHandler_iff {handler : Handler} {body : Reader} :
    Success (answer (runHandler body handler)).1 ↔ handler = .handleHealth := by
  have herror : ∀ {status : StatusCode} (message : Bytes), ¬ status.Informational →
      ¬ Success status → ¬ Success (answer (writeError status message)).1 := by
    intro status message hinf hno
    rwa [answer_writeError hinf]
  have hwrite : ∀ fields what, ¬ Success (answer (handleWrite fields what body)).1 := by
    intro fields what
    rw [handleWrite_eq]
    split_ifs
    · exact herror _ (by decide) (by decide)
    · exact herror _ (by decide) (by decide)
    · exact herror _ (by decide) (by decide)
    · exact herror _ (by decide) (by decide)
  cases handler with
  | handleHealth =>
      refine ⟨fun _ => rfl, fun _ => ?_⟩
      show Success (answer handleHealth).1
      rw [answer_handleHealth]
      decide
  | handleGetWallet => exact ⟨fun h => absurd h (herror _ (by decide) (by decide)), by simp⟩
  | handleCreateReservation | handleSettle | handleRelease | handleRecharge | handleRefund =>
      exact ⟨fun h => absurd h (hwrite _ _), by simp⟩

/-- The health check is found under the one path. -/
theorem path_of_handleHealth {method text path : Bytes} {values : List (Bytes × Bytes)}
    (hreads : Reads text path) (hroot : text.head? = some slash)
    (h : findHandler routes method text = .handled .handleHealth values) :
    path = utf8 "/healthz" := by
  obtain ⟨-, pat, hmem, hmatch⟩ := findHandler_handled h
  have hpat : ∀ r ∈ routes, r.2 = .handleHealth → r.1.segments = [.literal (utf8 "healthz")] := by
    decide +kernel
  unfold Pattern.match? at hmatch
  split at hmatch
  · obtain ⟨vs, hvs, -⟩ := Option.map_eq_some_iff.mp hmatch
    rw [hpat _ hmem rfl] at hvs
    rw [(matchPath_reads (by decide) (.inr hroot) hreads hvs).1]
    rfl
  · cases hmatch

/-- A success comes from the health check. -/
theorem success_respond {method text path : Bytes} (hreads : Reads text path)
    (hroot : text.head? = some slash) {req : Request Reader} {status : StatusCode} {data : Bytes}
    (h : respond (findHandler routes method text, req) = some (status, data))
    (hs : Success status) : path = utf8 "/healthz" := by
  cases hfind : findHandler routes method text with
  | handled handler values =>
      rw [hfind] at h
      obtain rfl : _ = status := congrArg Prod.fst (Option.some.inj h)
      obtain rfl := success_runHandler_iff.mp hs
      exact path_of_handleHealth hreads hroot hfind
  | redirect p =>
      rw [hfind] at h
      cases h
  | badRequest | notFound | methodNotAllowed =>
      rw [hfind] at h
      obtain rfl : _ = status := congrArg Prod.fst (Option.some.inj h)
      exact absurd hs (by decide +kernel)

/-! ### Which calls are answered with a success -/

theorem exists_respond {response : ServeMux.Response Handler} (req : Request Reader)
    (h : ∀ path, response ≠ .redirect path) :
    ∃ status data, respond (response, req) = some (status, data) := by
  cases response with
  | redirect path => exact absurd rfl (h path)
  | handled | badRequest | notFound | methodNotAllowed => exact ⟨_, _, rfl⟩

/-- The path of a call starts in the billing API. -/
theorem Operation.sentPath_prefix (op : Operation) (id : Bytes) :
    ∃ rest, (op.sentPath id).1 = slash :: 105 :: rest := by
  obtain ⟨rest, hrest⟩ : ∃ rest, op.path id = slash :: 105 :: rest := by
    cases op <;> exact ⟨_, rfl⟩
  have hcut : ∀ x : UInt8, x ≠ slash → x ≠ 105 → ∀ s : Bytes,
      (cut x (slash :: 105 :: s)).1 = slash :: 105 :: (cut x s).1 := by
    intro x hx hx' s
    simp [cut, hx.symm, hx'.symm]
  exact ⟨_, by rw [Operation.sentPath, hrest, hcut hash (by decide) (by decide),
    hcut question (by decide) (by decide)]⟩

/-- What a call sends is not the path of the health check. -/
theorem Operation.path_ne_health {op : Operation} {id path : Bytes}
    (h : Reads (op.sentPath id).1 path) : path ≠ utf8 "/healthz" := by
  obtain ⟨rest, hrest⟩ := op.sentPath_prefix id
  rw [hrest] at h
  cases h with
  | plain _ h =>
      cases h with
      | plain _ h =>
          intro heq
          exact absurd (List.cons.inj (List.cons.inj heq).2).1 (by decide)

/-- The URL of a call, as its parts. -/
theorem Operation.withPath {c : Client} {op : Operation} {id : Bytes} {u : URL}
    (hu : parseURL (c.baseURL ++ op.path id) = some u) :
    ∃ scheme, withPath scheme c.host (op.sentPath id).1 (op.sentPath id).2 = some u ∧
      QueryText u.rawQuery := by
  obtain ⟨hpath, hctl⟩ := parseURL_http c.host_valid (op.path_head id) hu
  refine ⟨_, hpath, fun b hb => ?_⟩
  rw [(withPath_eq_some.mp hpath).2] at hb
  have hmem := mem_of_mem_cut_snd hb
  refine ⟨by simpa using List.any_eq_false.mp hctl b hmem, ?_⟩
  intro heq
  subst heq
  exact not_mem_cut _ hmem

theorem Operation.not_mem_method (op : Operation) : (32 : UInt8) ∉ op.method := by
  cases op <;> decide

/-- A redirect is followed with a `GET`. -/
theorem Operation.redirectMethod (op : Operation) : redirectMethod op.method = utf8 "GET" := by
  cases op <;> decide

/-- Where a call ends: what the server makes of the last request, and this request. -/
def Operation.last (op : Operation) (u : URL) (body : Option Reader) :
    ServeMux.Response Handler × Request Reader :=
  if (32 : UInt8) ∈ u.rawQuery then (.badRequest, ⟨op.method, u, body⟩)
  else if cleanPath u.escapedPath = u.escapedPath then
    (findHandler routes op.method u.escapedPath, ⟨op.method, u, body⟩)
  else (findHandler routes (utf8 "GET") (escape shouldEscape (cleanPath u.escapedPath)),
    Request.clean ⟨op.method, u, body⟩)

/-- However many redirects the client would follow, it follows one at most. -/
theorem follow_call {c : Client} {op : Operation} {id : Bytes} {u : URL}
    (hu : parseURL (c.baseURL ++ op.path id) = some u) (body : Option Reader) (n : ℕ) :
    follow routes (n + 1) ⟨op.method, u, body⟩ = some (op.last u body) := by
  obtain ⟨scheme, hpath, hquery⟩ := Operation.withPath hu
  rw [follow_eq ⟨op.method, u, body⟩ hpath (op.sentPath_head id) op.not_mem_method hquery n,
    Operation.last]
  dsimp only
  rw [op.redirectMethod]

/-- The text of a call's path is not the path of the health check. -/
theorem Operation.escapedPath_ne_health {c : Client} {op : Operation} {id : Bytes} {u : URL}
    (hu : parseURL (c.baseURL ++ op.path id) = some u) : u.escapedPath ≠ utf8 "/healthz" := by
  obtain ⟨scheme, hpath, -⟩ := Operation.withPath hu
  intro heq
  have htext := pathText_escapedPath hpath (op.sentPath_head id)
  refine Operation.path_ne_health (withPath_eq_some.mp hpath).1 (htext.reads.unique ?_)
  rw [heq]
  exact .refl (by decide)

theorem findHandler_health : findHandler routes (utf8 "GET")
    (escape shouldEscape (utf8 "/healthz")) = .handled .handleHealth [] := by
  decide +kernel

/-- Every call whose URL parses is answered, and with a success exactly if its path leads to
the health check. -/
theorem respond_last {c : Client} {op : Operation} {id : Bytes} {u : URL}
    (hu : parseURL (c.baseURL ++ op.path id) = some u) (body : Option Reader) :
    ∃ status data, respond (op.last u body) = some (status, data) ∧
      (Success status ↔ (32 : UInt8) ∉ u.rawQuery ∧ cleanPath u.escapedPath = utf8 "/healthz") := by
  obtain ⟨scheme, hpath, -⟩ := Operation.withPath hu
  have hroot := op.sentPath_head id
  have hreads := (withPath_eq_some.mp hpath).1
  have htext := pathText_escapedPath hpath hroot
  have hhead := htext.head hroot (Reads.head_slash hreads hroot)
  rw [Operation.last]
  split_ifs with hblank hclean
  · exact ⟨_, _, rfl, fun hs => absurd hs (by decide), fun h => absurd hblank h.1⟩
  · obtain ⟨status, data, hresp⟩ := exists_respond ⟨op.method, u, body⟩
      (findHandler_ne_redirect routes op.method hclean)
    refine ⟨status, data, hresp, fun hs => ?_, fun h => ?_⟩
    · exact absurd (success_respond htext.reads hhead hresp hs) (Operation.path_ne_health hreads)
    · exact absurd (hclean ▸ h.2) (Operation.escapedPath_ne_health hu)
  · have hesc := (clean_cleanPath u.escapedPath).escape
    obtain ⟨status, data, hresp⟩ := exists_respond (Request.clean ⟨op.method, u, body⟩)
      (findHandler_ne_redirect routes (utf8 "GET") (cleanPath_of_clean hesc))
    refine ⟨status, data, hresp, fun hs => ⟨hblank, ?_⟩, fun h => ?_⟩
    · exact success_respond (reads_escapedPath _) hesc.head.1 hresp hs
    · rw [h.2, findHandler_health] at hresp
      obtain rfl : _ = status := congrArg Prod.fst (Option.some.inj hresp)
      exact success_runHandler_iff.mpr rfl

/-! ### How they get there -/

/-- The request is answered with a 301, the client asks for `next` then, with a `GET` and
without the body, and the health check answers that. -/
structure LedToHealth (req next : Request Reader) (line : Bytes) : Prop where
  sent : requestLine req.method req.url = some line
  redirected : serve routes line = .redirect (utf8 "/healthz")
  moved : (answer (redirect req.method (utf8 "/healthz") (rawQuery line))).1.1 = 301
  followed : req.redirected (location (utf8 "/healthz") (rawQuery line)) = some next
  method : next.method = utf8 "GET"
  body : next.body = none
  answered : follow routes 0 next = some (.handled .handleHealth [], next)

theorem answer_redirect (method path query : Bytes) :
    (answer (redirect method path query)).1.1 = 301 := by
  rw [answer, Response.status, Response.final_foldl_call]
  rfl

/-- A path that is cleaned to the path of the health check leads there, by one redirect. -/
theorem ledToHealth {c : Client} {op : Operation} {id : Bytes} {u : URL}
    (hu : parseURL (c.baseURL ++ op.path id) = some u) (body : Option Reader)
    (hblank : (32 : UInt8) ∉ u.rawQuery) (hhealth : cleanPath u.escapedPath = utf8 "/healthz") :
    ∃ line next, LedToHealth ⟨op.method, u, body⟩ next line ∧
      op.last u body = (.handled .handleHealth [], next) := by
  obtain ⟨scheme, hpath, hquery⟩ := Operation.withPath hu
  have hno : cleanPath u.escapedPath ≠ u.escapedPath := fun heq =>
    Operation.escapedPath_ne_health hu (heq ▸ hhealth)
  obtain ⟨line, hline, hraw, hserve⟩ := serve_redirect routes op.not_mem_method hpath
    (op.sentPath_head id) hquery hblank hno
  have hfollow := @follow_clean _ _ routes ⟨op.method, u, body⟩ op.not_mem_method hquery hblank 0
  have hnext := @Request.redirected_eq _ ⟨op.method, u, body⟩ hquery
  rw [hhealth] at hserve hnext
  refine ⟨line, Request.clean ⟨op.method, u, body⟩, ⟨hline, hserve, answer_redirect .., ?_,
    op.redirectMethod, rfl, ?_⟩, ?_⟩
  · rw [hraw]
    exact hnext
  · rw [hfollow]
    dsimp only
    rw [hhealth, op.redirectMethod, findHandler_health]
  · rw [Operation.last, if_neg hblank, if_neg hno, hhealth, findHandler_health]

/-- Without an `out`, the status of an answer that arrives whole decides. -/
theorem doResponse_nil_iff {β : Type} (T : Target β) (method path : Bytes) {resp : HttpResponse}
    (hall : resp.body.failure = none) :
    (doResponse T method path resp none).1 = none ↔ resp.Success := by
  have hread : (resp.body.readAll maxResponseBody).2 = none := by
    by_cases hcut : resp.CutOff
    · rw [readAll_of_cutOff hcut]
    · rw [readAll_of_not_cutOff hcut, hall]
  have hpair : resp.body.readAll maxResponseBody =
      ((resp.body.readAll maxResponseBody).1, none) := Prod.ext rfl hread
  by_cases hs : resp.Success
  · rw [doResponse, hpair]
    dsimp only
    rw [if_neg hs.status]
    simp [hs]
  · obtain ⟨err, herr⟩ := doResponse_of_not_success T method path none hs
    simp [herr, hs]

/-- **Which calls are reported as a success.** For every client, operation, id and body
whose URL parses: the call is answered after one redirect at most, and if the answer arrives
whole, the error is nil exactly if the path of the call, cleaned, is the path of the health
check, and no blank stands in the query. Such a call is answered with a 301, and the `GET`
that follows it, by the health check. -/
theorem reported_iff {β : Type} (T : Target β) {c : Client} {op : Operation} {id : Bytes} {u : URL}
    (hu : parseURL (c.baseURL ++ op.path id) = some u) (body : Option Reader) :
    ∃ last status data, follow routes 1 ⟨op.method, u, body⟩ = some last ∧
      respond last = some (status, data) ∧
      c.exchange op.method (op.path id) body = some (status, data) ∧
      ∀ respBody : Reader, respBody.data = data → respBody.failure = none →
        ((doResponse T op.method (op.path id) ⟨status.1, respBody⟩ none).1 = none ↔
          (32 : UInt8) ∉ u.rawQuery ∧ cleanPath u.escapedPath = utf8 "/healthz") ∧
        ((doResponse T op.method (op.path id) ⟨status.1, respBody⟩ none).1 = none →
          ∃ line next, LedToHealth ⟨op.method, u, body⟩ next line ∧
            last = (.handled .handleHealth [], next)) := by
  obtain ⟨status, data, hresp, hsuccess⟩ := respond_last hu body
  have hexchange : c.exchange op.method (op.path id) body = some (status, data) := by
    rw [Client.exchange, hu, Option.bind_some, follow_call hu, Option.bind_some, hresp]
  refine ⟨_, status, data, follow_call hu body 0, hresp, hexchange, fun respBody _ hall => ?_⟩
  rw [doResponse_nil_iff T _ _ hall]
  refine ⟨hsuccess, fun hs => ?_⟩
  obtain ⟨hblank, hhealth⟩ := hsuccess.mp hs
  exact ledToHealth hu body hblank hhealth

/-- An id that leads out of the billing API, and hides the end of the path in the query. -/
def escapingID : Bytes := utf8 "../../../../healthz?"

theorem escapingID_reported :
    ∃ u, parseURL (localClient.baseURL ++ Operation.settle.path escapingID) = some u ∧
      u.path = utf8 "/internal/v1/billing/reservations/../../../../healthz" ∧
      ∃ last status data, follow routes 1 ⟨Operation.settle.method, u, none⟩ = some last ∧
        respond last = some (status, data) ∧
        (doResponse anyTarget Operation.settle.method (Operation.settle.path escapingID)
          ⟨status.1, .last data none⟩ none).1 = none ∧
        ∃ line next, LedToHealth ⟨Operation.settle.method, u, none⟩ next line ∧
          last = (.handled .handleHealth [], next) := by
  obtain ⟨u, hu, hpath, hblank, hclean⟩ : ∃ u,
      parseURL (localClient.baseURL ++ Operation.settle.path escapingID) = some u ∧
        u.path = utf8 "/internal/v1/billing/reservations/../../../../healthz" ∧
        (32 : UInt8) ∉ u.rawQuery ∧ cleanPath u.escapedPath = utf8 "/healthz" :=
    ⟨_, rfl, by decide +kernel, by decide +kernel, by decide +kernel⟩
  obtain ⟨last, status, data, hfollow, hresp, -, hreport⟩ := reported_iff anyTarget hu none
  obtain ⟨hiff, hled⟩ := hreport (.last data none) rfl rfl
  have hnil := hiff.mpr ⟨hblank, hclean⟩
  exact ⟨u, hu, hpath, last, status, data, hfollow, hresp, hnil, hled hnil⟩

end LoopzToken.Billing
